import ClauseForm.Proofs.Apartness

/-! Each Skolem symbol given out is used in the clauses of one formula, and always as one term. -/

namespace ClauseForm

section Parts

/-- A term is another one or lies within one of its arguments. -/
inductive Term.Within : Term → Term → Prop
  | self (t : Term) : t.Within t
  | argument {t s : Term} {f : FunctionSymbol} {args : List Term} (listed : s ∈ args)
      (inside : t.Within s) : t.Within (.app f args)

/-- A term lies within an argument of an atom. -/
def Atom.Contains (a : Atom) (t : Term) : Prop := ∃ s ∈ a.args, t.Within s

/-- A term lies within an atom of a formula. -/
def Formula.Contains (f : Formula) (t : Term) : Prop := ∃ a ∈ f.atoms, a.Contains t

/-- A term lies within an atom of a clause. -/
def Clause.Contains (c : Clause) (t : Term) : Prop := ∃ l ∈ c.literals, l.atom.Contains t

/-- A term lies within the clauses of the block at a place. -/
def ContainedAt (blocks : List (List Clause)) (place : Nat) (t : Term) : Prop :=
  ∃ block, blocks[place]? = some block ∧ ∃ c ∈ block, c.Contains t

namespace Term.Within

variable {s t : Term}

/-- What lies within a known term is known. -/
theorem known (inside : t.Within s) {table : SymbolTable} (known : s.Known table) :
    t.Known table := by
  -- Each argument of a known term is known.
  induction inside with
  | self => exact known
  | argument listed _ ih => exact ih (((known_app _ _ _).mp known).2 _ listed)

/-- What lies within a term with other symbols is such a term itself. -/
theorem exists_of_mapSymbols {image : SymbolMap} (inside : t.Within (s.mapSymbols image)) :
    ∃ u : Term, u.Within s ∧ t = u.mapSymbols image := by
  induction s with
  | var x =>
    cases inside
    exact ⟨_, .self _, rfl⟩
  | const c =>
    cases inside
    exact ⟨_, .self _, rfl⟩
  | app f args ih =>
    rw [mapSymbols_app] at inside
    -- The whole corresponds to the whole, and an argument to an argument.
    cases inside with
    | self => exact ⟨_, .self _, (mapSymbols_app f args).symm⟩
    | argument listed inside =>
      obtain ⟨s, member, rfl⟩ := List.mem_map.mp listed
      obtain ⟨u, part, same⟩ := ih s member inside
      exact ⟨u, .argument member part, same⟩

/-- What lies within an instance is an instance, or lies within what a variable stands for. -/
theorem exists_of_bind {values : Variable → Term} (inside : t.Within (s.bind values)) :
    (∃ u : Term, u.Within s ∧ t = u.bind values) ∨
      ∃ x : Variable, (var x).Within s ∧ t.Within (values x) := by
  induction s with
  | var x => exact Or.inr ⟨x, .self _, inside⟩
  | const c =>
    cases inside
    exact Or.inl ⟨_, .self _, rfl⟩
  | app f args ih =>
    -- All of the application is an instance, and what lies in an argument is found there.
    rw [bind_app] at inside
    cases inside with
    | self => exact Or.inl ⟨_, .self _, (bind_app values f args).symm⟩
    | argument listed inside =>
      obtain ⟨s, member, rfl⟩ := List.mem_map.mp listed
      exact (ih s member inside).imp (fun ⟨u, part, same⟩ => ⟨u, .argument member part, same⟩)
        fun ⟨x, part, within⟩ => ⟨x, .argument member part, within⟩

/-- What lies within a term with a variable replaced comes from the term or from what is put in. -/
theorem exists_of_substitute {x : Variable} {value : Term}
    (inside : t.Within (s.substitute x value)) :
    t.Within value ∨ ∃ u : Term, u.Within s ∧ (t = u ∨ t = u.substitute x value) := by
  -- Replacing one variable is a way of making an instance.
  rcases exists_of_bind inside with ⟨u, part, same⟩ | ⟨y, part, within⟩
  · exact Or.inr ⟨u, part, Or.inr same⟩
  · -- Any other variable stands for itself.
    by_cases here : y = x
    · rw [here, assign_same] at within
      exact Or.inl within
    · rw [assign_of_ne here] at within
      cases within
      exact Or.inr ⟨_, part, Or.inl rfl⟩

end Term.Within

namespace Formula

variable {f : Formula} {t : Term}

/-- An atom of a formula with a variable replaced comes from an atom of the formula. -/
theorem exists_of_mem_atoms_substitute {x : Variable} {value : Term} {a : Atom}
    (member : a ∈ (f.substitute x value).atoms) :
    ∃ b ∈ f.atoms, a = b ∨ a = b.substitute x value := by
  -- Replacement passes to the sides of a connective, and each of its atoms lies on one side.
  induction f with
  | atom b => exact ⟨b, List.mem_singleton_self b, Or.inr (List.mem_singleton.mp member)⟩
  | not f ih => exact ih member
  | binary op l r left right =>
    rcases List.mem_append.mp member with member | member
    · obtain ⟨b, inside, same⟩ := left member
      exact ⟨b, List.mem_append_left _ inside, same⟩
    · obtain ⟨b, inside, same⟩ := right member
      exact ⟨b, List.mem_append_right _ inside, same⟩
  | quantified q y f ih =>
    -- Below a quantifier that binds the variable nothing is replaced.
    rw [substitute, atoms] at member
    split at member
    · exact ⟨a, member, Or.inl rfl⟩
    · exact ih member

/-- What a formula with a variable replaced contains comes from it or from what is put in. -/
theorem exists_of_contains_substitute {x : Variable} {value : Term}
    (contains : (f.substitute x value).Contains t) :
    t.Within value ∨ ∃ u, f.Contains u ∧ (t = u ∨ t = u.substitute x value) := by
  -- The atom and the argument are found first, and then the part within the argument.
  obtain ⟨a, member, s, listed, inside⟩ := contains
  obtain ⟨b, part, rfl | rfl⟩ := exists_of_mem_atoms_substitute member
  · exact Or.inr ⟨t, ⟨a, part, s, listed, inside⟩, Or.inl rfl⟩
  · obtain ⟨s, source, rfl⟩ := List.mem_map.mp listed
    exact (Term.Within.exists_of_substitute inside).imp_right
      fun ⟨u, within, same⟩ => ⟨u, ⟨b, part, s, source, within⟩, same⟩

/-- What a formula with other symbols contains is a term with other symbols. -/
theorem exists_of_contains_mapSymbols {image : SymbolMap}
    (contains : (f.mapSymbols image).Contains t) : ∃ u, f.Contains u ∧ t = u.mapSymbols image := by
  -- Symbols are replaced atom by atom and argument by argument.
  obtain ⟨a, member, s, listed, inside⟩ := contains
  rw [atoms_mapSymbols] at member
  obtain ⟨b, part, rfl⟩ := List.mem_map.mp member
  obtain ⟨s, source, rfl⟩ := List.mem_map.mp listed
  obtain ⟨u, within, same⟩ := inside.exists_of_mapSymbols
  exact ⟨u, ⟨b, part, s, source, within⟩, same⟩

/-- What a known formula contains is known. -/
theorem Known.contains {table : SymbolTable} (known : f.Known table) (contains : f.Contains t) :
    t.Known table := by
  obtain ⟨a, member, s, listed, inside⟩ := contains
  refine inside.known ?_
  -- The argument belongs to an atom, all of whose symbols are known.
  induction f with
  | atom b =>
    obtain rfl := List.mem_singleton.mp member
    exact known.2 s listed
  | not f ih => exact ih known member
  | binary op l r left right =>
    exact (List.mem_append.mp member).elim (left known.1) (right known.2)
  | quantified q x f ih => exact ih known.2 member

end Formula

end Parts

section Uses

/-- Terms at whose head there is a symbol that a table has given out, or a variable. -/
def Term.HeadKnown (table : SymbolTable) : Term → Prop
  | .var _ => True
  | .const c => table.Knows c
  | .app f _ => table.Knows f.toSymbol

/-- The Skolem symbol is at the head of a term, as a constant or as a function. -/
def SymbolTable.Skolem.Heads (sk : Skolem) : Term → Prop
  | .var _ => False
  | .const c => c = sk.constant
  | .app f _ => f.toSymbol = sk.function

/-- A Skolem symbol together with the variables that it is applied to. -/
structure SkolemUse where
  skolem : SymbolTable.Skolem
  args : List Variable

/-- A constant where there is nothing to be applied to, and a function with its arity elsewhere. -/
def SkolemUse.term (use : SkolemUse) : Term :=
  if use.args.isEmpty then .const use.skolem.constant
  else .app { use.skolem.function with arity := use.args.length } (use.args.map .var)

/-- Applies the same Skolem symbol to other variables. -/
def SkolemUse.rename (names : Variable → Variable) (use : SkolemUse) : SkolemUse :=
  { use with args := use.args.map names }

/-- Terms that are headed by a known symbol or are one of the uses of Skolem symbols. -/
def Term.ComesFrom (table : SymbolTable) (uses : List SkolemUse) (t : Term) : Prop :=
  t.HeadKnown table ∨ ∃ use ∈ uses, t = use.term

variable {table start final : SymbolTable} {sk : SymbolTable.Skolem} {use : SkolemUse} {t : Term}

/-- A known term has a known symbol at its head, or is a variable. -/
theorem Term.Known.headKnown (known : t.Known table) : t.HeadKnown table := by
  -- Only the head of the term matters.
  cases t with
  | var x => trivial
  | const c => exact known
  | app f args => exact ((known_app table f args).mp known).1

/-- A new Skolem symbol is not at the head of a term that is headed by an old symbol. -/
theorem Term.HeadKnown.not_heads (known : t.HeadKnown start) (new : start.NewSkolem final sk) :
    ¬ sk.Heads t := by
  -- Such a symbol would have been known before it was given out.
  cases t with
  | var x => exact fun headed => headed
  | const c => exact fun headed => new.constant.1 (headed ▸ known)
  | app f args => exact fun headed => new.function.1 (headed ▸ known)

namespace SkolemUse

/-- The Skolem symbol of a use is at its head. -/
theorem heads_term (use : SkolemUse) : use.skolem.Heads use.term := by
  rw [term]
  split <;> rfl

/-- The variables of a use are those that its symbol is applied to. -/
theorem vars_term (use : SkolemUse) : use.term.vars = use.args := by
  rw [term]
  split
  -- A constant is applied to nothing.
  · rename_i empty
    exact (List.isEmpty_iff.mp empty).symm
  · simp [List.flatMap_map]

/-- What lies within a use of a Skolem symbol is all of it or a variable. -/
theorem cases_of_within (inside : t.Within use.term) : t = use.term ∨ ∃ x, t = .var x := by
  -- A constant has no parts, and the parts of an application are variables here.
  by_cases empty : use.args.isEmpty = true
  · rw [term, if_pos empty] at inside ⊢
    cases inside
    exact Or.inl rfl
  · rw [term, if_neg empty] at inside ⊢
    cases inside with
    | self => exact Or.inl rfl
    | argument listed inside =>
      obtain ⟨x, _, rfl⟩ := List.mem_map.mp listed
      cases inside
      exact Or.inr ⟨x, rfl⟩

/-- Only its own symbol is at the head of a use of a new Skolem symbol. -/
theorem eq_of_heads {earlier : SymbolTable} (new : start.NewSkolem final use.skolem)
    (other : earlier.NewSkolem final sk) (headed : sk.Heads use.term) : use.skolem = sk := by
  -- The name of the symbol is at the head, as a constant or as a function.
  rw [term] at headed
  split at headed
  · exact new.eq other (Or.inl headed)
  · exact new.eq other (Or.inr headed)

/-- Renaming the variables of a use is replacing variables in its term. -/
theorem term_rename (names : Variable → Variable) :
    (use.rename names).term = use.term.mapSymbols (.ofVariables names) := by
  -- The number of variables, and so the arity, stays the same.
  rw [term, term, rename, List.isEmpty_map, List.length_map]
  split
  · rfl
  · rw [Term.mapSymbols_app, List.map_map, List.map_map]
    rfl

/-- A use stays as it is where a variable is replaced that it does not have. -/
theorem substitute_term {x : Variable} (unused : x ∉ use.args) (value : Term) :
    use.term.substitute x value = use.term := by
  -- None of the arguments is the variable replaced.
  rw [term]
  split
  · rfl
  · rw [Term.substitute, Term.bind_app, List.map_map]
    refine congrArg (Term.app _) (List.map_congr_left fun y listed => ?_)
    exact assign_of_ne fun same => unused (same ▸ listed)

end SkolemUse

/-- A witness is the use of a new Skolem symbol with the variables in scope. -/
theorem freshWitness_eq (table : SymbolTable) (scope : List Variable) :
    table.freshWitness scope =
      (SkolemUse.term ⟨table.freshSkolem.1, scope⟩, table.freshSkolem.2) := by
  -- The supply gives out the same symbol, whether there is a scope or not.
  simp only [SymbolTable.freshWitness, SkolemUse.term]
  split <;> rfl

/-- Other variables leave the head of a term as it is. -/
theorem Term.ComesFrom.rename {uses : List SkolemUse} (comes : t.ComesFrom table uses)
    (names : Variable → Variable) :
    (t.mapSymbols (.ofVariables names)).ComesFrom table (uses.map (SkolemUse.rename names)) := by
  -- A head that is no variable stays, and a use becomes one with other variables.
  rcases comes with known | ⟨use, listed, rfl⟩
  · left
    cases t with
    | var x => trivial
    | const c => exact known
    | app f args =>
      rw [mapSymbols_app]
      exact known
  · exact Or.inr ⟨use.rename names, List.mem_map_of_mem listed, (use.term_rename names).symm⟩

/-- A use of a further Skolem symbol in place of a variable leaves uses of Skolem symbols. -/
theorem Term.ComesFrom.substitute {uses : List SkolemUse} (comes : t.ComesFrom table uses)
    {x : Variable} (unused : ∀ other ∈ uses, x ∉ other.args) :
    (t.substitute x use.term).ComesFrom table (uses ++ [use]) := by
  -- A variable may become the use, while no other head changes.
  rcases comes with known | ⟨other, listed, rfl⟩
  · cases t with
    | var y =>
      by_cases here : y = x
      · refine Or.inr ⟨use, by simp, ?_⟩
        rw [here]
        exact assign_same
      · refine Or.inl ?_
        rw [Term.substitute, bind_var, assign_of_ne here]
        trivial
    | const c => exact Or.inl known
    | app f args =>
      rw [Term.substitute, bind_app]
      exact Or.inl known
  · rw [SkolemUse.substitute_term (unused other listed)]
    exact Or.inr ⟨other, List.mem_append_left _ listed, rfl⟩

/-- What is headed by a new Skolem symbol is one of the uses of that symbol. -/
theorem Term.ComesFrom.exists_use {uses : List SkolemUse} (comes : t.ComesFrom start uses)
    (each : ∀ use ∈ uses, start.NewSkolem final use.skolem) (new : start.NewSkolem final sk)
    (headed : sk.Heads t) : ∃ use ∈ uses, use.skolem = sk ∧ t = use.term := by
  -- An old head is no new symbol, and each use has a symbol of its own.
  rcases comes with head | ⟨use, listed, rfl⟩
  · exact absurd headed (head.not_heads new)
  · exact ⟨use, listed, SkolemUse.eq_of_heads (each use listed) new headed, rfl⟩

/-- What comes from some uses comes from more of them. -/
theorem Term.ComesFrom.append {uses : List SkolemUse} (comes : t.ComesFrom table uses)
    (others : List SkolemUse) : t.ComesFrom table (uses ++ others) :=
  comes.imp_right fun ⟨use, listed, same⟩ => ⟨use, List.mem_append_left _ listed, same⟩

/--
Uses of different Skolem symbols, given out between two states of a table and each applied to the
first ones of the same variables.
-/
structure FreshUses (before after : SymbolTable) (xs : List Variable)
    (uses : List SkolemUse) : Prop where
  new : ∀ use ∈ uses, before.NewSkolem after use.skolem
  distinct : (uses.map SkolemUse.skolem).Nodup
  prefixes : ∀ use ∈ uses, use.args <+: xs

/-- Each Skolem symbol is used once. -/
theorem FreshUses.eq_of_skolem {xs : List Variable} {uses : List SkolemUse}
    (fresh : FreshUses start final xs uses) {other : SkolemUse} (one : use ∈ uses)
    (two : other ∈ uses) (same : use.skolem = other.skolem) : use = other :=
  List.inj_on_of_nodup_map fresh.distinct one two same

/-- One more Skolem symbol is used if it is given out before the others. -/
theorem FreshUses.cons {middle : SymbolTable} {xs : List Variable} {uses : List SkolemUse}
    (fresh : FreshUses middle final xs uses) (new : start.NewSkolem middle use.skolem)
    (before : start.Grows middle) (after : middle.Grows final) (first : use.args <+: xs) :
    FreshUses start final xs (use :: uses) where
  new := List.forall_mem_cons.mpr
    ⟨new.later after, fun other listed => (fresh.new other listed).earlier before⟩
  distinct := by
    refine List.nodup_cons.mpr ⟨fun listed => ?_, fresh.distinct⟩
    -- The others were not known yet when this one was.
    obtain ⟨other, member, same⟩ := List.mem_map.mp listed
    exact (same ▸ fresh.new other member).constant.1 new.constant.2
  prefixes := List.forall_mem_cons.mpr ⟨first, fresh.prefixes⟩

/-- Uses of Skolem symbols with their variables renamed are uses of the same symbols. -/
theorem FreshUses.rename {xs : List Variable} {uses : List SkolemUse}
    (fresh : FreshUses start final xs uses) (names : Variable → Variable) :
    FreshUses start final (xs.map names) (uses.map (SkolemUse.rename names)) where
  new := List.forall_mem_map.mpr fresh.new
  distinct := by
    rw [List.map_map]
    exact fresh.distinct
  prefixes := List.forall_mem_map.mpr fun use listed => (fresh.prefixes use listed).map names

end Uses

namespace Formula

/-- Below a universal quantifier in front all quantifiers are universal. -/
theorem isSkolemized_of_isExistentialsFirst {x : Variable} {f : Formula}
    (first : (quantified .universal x f).isExistentialsFirst = true) : f.isSkolemized = true := by
  -- The first of the quantifiers is universal, and after it no existential one may come.
  rw [isExistentialsFirst, Bool.and_eq_true] at first
  have all : ((quantified .universal x f).binders.map (·.1)).all (· == .universal) = true := first.2
  rw [binders, List.map_cons, List.all_cons, Bool.and_eq_true, List.all_map] at all
  exact all.2

/-- A further use in place of a variable that the others do not have leaves uses only. -/
theorem comesFrom_substitute {f : Formula} {base : SymbolTable} {uses : List SkolemUse}
    {use : SkolemUse} {x : Variable} (comes : ∀ t, f.Contains t → t.ComesFrom base uses)
    (unused : ∀ other ∈ uses, x ∉ other.args) :
    ∀ t, (f.substitute x use.term).Contains t → t.ComesFrom base (uses ++ [use]) := by
  intro t contains
  -- What is contained now was contained before, or is the use or a variable.
  rcases exists_of_contains_substitute contains with inside | ⟨u, part, rfl | rfl⟩
  · rcases SkolemUse.cases_of_within inside with rfl | ⟨y, rfl⟩
    · exact Or.inr ⟨use, by simp, rfl⟩
    · exact Or.inl trivial
  · exact (comes t part).append [use]
  · exact (comes u part).substitute unused

/--
The witnesses that existential quantifiers give way to are uses of new Skolem symbols with the
variables in scope, followed by those of the universal quantifiers passed. They are constants where
no universal quantifier stands before an existential one.
-/
theorem Skolemizes.exists_uses {f g : Formula} {scope : List Variable}
    {symbols final base : SymbolTable} (steps : Skolemizes symbols scope f final g)
    (distinct : f.boundVariables.Nodup) (outside : ∀ x ∈ scope, x ∉ f.boundVariables)
    {earlier : List SkolemUse} (within : ∀ use ∈ earlier, use.args ⊆ scope)
    (comes : ∀ t, f.Contains t → t.ComesFrom base earlier) :
    ∃ later, FreshUses symbols final (scope ++ g.boundVariables) later ∧
      (scope = [] ∧ f.isExistentialsFirst = true ∨ f.isSkolemized = true →
        ∀ use ∈ later, use.args = []) ∧
      ∀ t, g.Contains t → t.ComesFrom base (earlier ++ later) := by
  induction steps generalizing earlier with
  | @existential symbols after final scope x f g term made rest ih =>
    rw [boundVariables, binders_substitute] at ih
    obtain ⟨unbound, distinct⟩ := List.nodup_cons.mp (bound_quantified ▸ distinct)
    simp only [bound_quantified, List.mem_cons, not_or] at outside
    obtain ⟨rfl, rfl⟩ := Prod.mk.inj ((freshWitness_eq symbols scope).symm.trans made)
    -- Earlier uses have variables in scope only, of which none is bound further in.
    have unused : ∀ use ∈ earlier, x ∉ use.args := fun use listed inside =>
      (outside x (within use listed inside)).1 rfl
    have narrow : ∀ use ∈ earlier ++ [⟨symbols.freshSkolem.1, scope⟩], use.args ⊆ scope := by
      intro use listed
      rcases List.mem_append.mp listed with listed | listed
      · exact within use listed
      · rw [List.mem_singleton.mp listed]
        exact List.Subset.refl scope
    obtain ⟨later, fresh, constant, last⟩ := ih distinct
      (fun y inside => (outside y inside).2) narrow (comesFrom_substitute comes unused)
    refine ⟨⟨symbols.freshSkolem.1, scope⟩ :: later, ?_, ?_, ?_⟩
    · exact fresh.cons symbols.freshSkolem_newSkolem symbols.grows_freshSkolem rest.grows
        (List.prefix_append _ _)
    · rintro (⟨empty, first⟩ | skolemized)
      · -- Below the existential quantifier the existential ones still come first.
        have below : f.isExistentialsFirst = true := first
        refine List.forall_mem_cons.mpr ⟨empty, constant (Or.inl ⟨empty, ?_⟩)⟩
        exact (sameShape_substitute _ _ _).isExistentialsFirst ▸ below
      · cases skolemized
    · simpa using last
  | @universal symbols final scope x f g rest ih =>
    obtain ⟨unbound, distinct⟩ := List.nodup_cons.mp (bound_quantified ▸ distinct)
    simp only [bound_quantified, List.mem_cons, not_or] at outside
    -- The scope grows at its end, so that earlier uses have the first ones of its variables.
    have new : x ∉ scope := fun inside => (outside x inside).1 rfl
    rw [extendScope, if_neg new] at ih
    have apart : ∀ y ∈ scope ++ [x], y ∉ f.boundVariables := by
      intro y inside
      rcases List.mem_append.mp inside with inside | same
      · exact (outside y inside).2
      · exact List.mem_singleton.mp same ▸ unbound
    obtain ⟨later, fresh, constant, last⟩ := ih distinct apart
      (fun use listed y inside => List.mem_append_left _ (within use listed inside)) comes
    refine ⟨later, ?_, ?_, last⟩
    · rwa [List.append_assoc] at fresh
    · rintro (⟨_, first⟩ | skolemized)
      · exact constant (Or.inr (isSkolemized_of_isExistentialsFirst first))
      · exact constant (Or.inr skolemized)
  | done plain =>
    -- No further witness is made.
    exact ⟨[], ⟨by simp, List.nodup_nil, by simp⟩, by simp, by simpa using comes⟩

end Formula

namespace Draft

variable {order : PrenexOrder} {d : Draft} {place : Nat} {f : Formula}
  (here : d.formulas[place]? = some f) (known : ∀ f ∈ d.formulas, f.Known d.symbols)

include here known

/-- What a formula contains when its witnesses are made is headed by symbols known before. -/
theorem headKnown_prenex {t : Term}
    (contains : ((f.standardForm (d.turn order place).first).1.toPrenex order).Contains t) :
    t.HeadKnown d.symbols := by
  have first : f.Known (d.turn order place).first := known_first here known
  have head := (((Formula.standardForm_renamed first).known.toPrenex order).contains
    contains).headKnown
  -- Only variables have been given out so far.
  cases t with
  | var x => trivial
  | const c =>
    rw [Term.HeadKnown, SymbolTable.knows_iff] at head ⊢
    rwa [count_standardForm f (by decide)] at head
  | app g args =>
    rw [Term.HeadKnown, SymbolTable.knows_iff] at head ⊢
    rwa [count_standardForm f (by decide)] at head

/--
What a formula contains in the end is headed by symbols known before the run, or is the use of a
Skolem symbol given out for the formula with the first ones of its variables.
-/
theorem exists_uses : ∃ uses,
    FreshUses (d.turn order place).second (f.witnessTable order (d.turn order place))
      (f.separated order (d.turn order place)).boundVariables uses ∧
    (f.separated order (d.turn order place)).boundVariables.Nodup ∧
    (order = .existentialsFirst → ∀ use ∈ uses, use.args = []) ∧
    ∀ t, (f.separated order (d.turn order place)).Contains t → t.ComesFrom d.symbols uses := by
  let g := (f.standardForm (d.turn order place).first).1.toPrenex order
  have first : f.Known (d.turn order place).first := known_first here known
  -- No witness has been made before this turn.
  have apart : g.Apart := (Formula.standardForm_apart first).toPrenex order
  have steps := g.skolemizes [] (d.turn order place).second
  have before : ∀ t, g.Contains t → t.ComesFrom d.symbols [] :=
    fun t contains => Or.inl (headKnown_prenex here known contains)
  obtain ⟨uses, fresh, constant, last⟩ :=
    steps.exists_uses apart.distinct (by simp) (by simp) before
  obtain ⟨names, claimed, made⟩ := exists_claimed here known
  have bound : (f.separated order (d.turn order place)).boundVariables =
      (f.witnessed order (d.turn order place)).boundVariables.map names := by
    rw [made, Formula.bound_forAll]
    rw [Formula.isQuantifierFree_mapSymbols]
    exact isQuantifierFree_matrix_witnessed here known
  refine ⟨uses.map (SkolemUse.rename names), ?_, ?_, fun existentials => ?_, fun t contains => ?_⟩
  · rw [bound]
    exact fresh.rename names
  · rw [bound]
    exact claimed.distinct
  · refine List.forall_mem_map.mpr fun use listed => ?_
    subst existentials
    exact congrArg (List.map names)
      (constant (Or.inl ⟨rfl, Formula.isExistentialsFirst_toPrenex _⟩) use listed)
  · -- Claiming variables gives other names to the variables of all terms alike.
    rw [made, Formula.Contains, Formula.forAll, Formula.atoms_quantify] at contains
    obtain ⟨u, part, rfl⟩ := Formula.exists_of_contains_mapSymbols contains
    rw [Formula.Contains, Formula.atoms_matrix] at part
    exact (last u part).rename names

omit known in
/-- A Skolem symbol is given out for one formula only. -/
theorem place_eq_of_newSkolem {other : Nat} {g : Formula} (there : d.formulas[other]? = some g)
    {sk : SymbolTable.Skolem}
    (one : (d.turn order place).second.NewSkolem (f.witnessTable order (d.turn order place)) sk)
    (two : (d.turn order other).second.NewSkolem (g.witnessTable order (d.turn order other)) sk) :
    place = other := by
  -- What has been given out for the formula whose turn comes first is known at the other turn.
  rcases Nat.lt_trichotomy place other with before | same | after
  · exact absurd ((paired_later here before).grows.knows one.constant.2) two.constant.1
  · exact same
  · exact absurd ((paired_later there after).grows.knows two.constant.2) one.constant.1

end Draft

section Blocks

variable {config : Config} {clock : Clock} {formulas : List Formula} {symbols : SymbolTable}
  {sink : Sink} {result : Normalized} {blocks : List (List Clause)} {place : Nat} {f : Formula}
  {t : Term}

/-- What the clauses of a formula contain is contained in the formula once variables are claimed. -/
theorem contains_of_containedAt
    (succeeded : (normalize config clock formulas symbols sink).result = .ok result)
    (divided : result.Blocks blocks) (here : formulas[place]? = some f)
    (contained : ContainedAt blocks place t) :
    (f.separated config.prenexOrder
      (Draft.turn config.prenexOrder { formulas, symbols } place)).Contains t := by
  -- The clause comes from the formula at the same place.
  obtain ⟨block, there, c, listed, l, part, inside⟩ := contained
  exact ⟨l.atom, mem_atoms_separated succeeded divided here there listed part, inside⟩

/-- A Skolem symbol given out for a formula has been given out by the run. -/
theorem newSkolem_of_turn
    (succeeded : (normalize config clock formulas symbols sink).result = .ok result)
    (here : formulas[place]? = some f) {sk : SymbolTable.Skolem}
    (new : (Draft.turn config.prenexOrder { formulas, symbols } place).second.NewSkolem
      (f.witnessTable config.prenexOrder
        (Draft.turn config.prenexOrder { formulas, symbols } place)) sk) :
    symbols.NewSkolem (normalize config clock formulas symbols sink).symbols sk := by
  -- The table has grown until the turn of the formula came.
  have before : symbols.Grows (Draft.turn config.prenexOrder { formulas, symbols } place).second :=
    (Draft.paired_afterFirst config.prenexOrder { formulas, symbols } (by decide)).grows.trans
      Draft.paired_second.grows
  -- The stages after this one keep the table as it is.
  have last : (normalize config clock formulas symbols sink).symbols =
      ((Draft.afterFirst config.prenexOrder { formulas, symbols } 5).after config.prenexOrder
        .renaming).symbols := congrArg Draft.symbols (normalize_ok succeeded).2
  rw [last]
  exact (new.later ((Draft.paired_witnessed here).grows.trans
    (Draft.paired_after _ _ _).grows)).earlier before

/--
All that clauses contain is headed by symbols known before or by Skolem symbols that the run has
given out. Each of these is used in the clauses of one formula only, always as one term, which
applies it to different variables or is a constant. Of two that are used in the clauses of one
formula, one is applied to the first ones of the variables that the other one is applied to. Where
existential quantifiers are put first, all of them are constants.
-/
theorem normalize_uses_skolem (known : ∀ f ∈ formulas, f.Known symbols)
    (succeeded : (normalize config clock formulas symbols sink).result = .ok result) :
    ∃ blocks, result.Blocks blocks ∧ result.clauses = blocks.flatten ∧
      blocks.length = formulas.length ∧
      (∀ i t, ContainedAt blocks i t → t.HeadKnown symbols ∨
        ∃ sk, symbols.NewSkolem (normalize config clock formulas symbols sink).symbols sk ∧
          sk.Heads t) ∧
      ∀ i t sk, ContainedAt blocks i t →
        symbols.NewSkolem (normalize config clock formulas symbols sink).symbols sk → sk.Heads t →
        ∃ xs : List Variable, t = SkolemUse.term ⟨sk, xs⟩ ∧ xs.Nodup ∧
          (config.prenexOrder = .existentialsFirst → xs = []) ∧
          (∀ j u, ContainedAt blocks j u → sk.Heads u → j = i ∧ u = t) ∧
          ∀ other ys, ContainedAt blocks i (SkolemUse.term ⟨other, ys⟩) →
            symbols.NewSkolem (normalize config clock formulas symbols sink).symbols other →
            xs <+: ys ∨ ys <+: xs := by
  -- What a block contains is contained in what has become of the formula at its place.
  obtain ⟨blocks, divided, whole, length⟩ := exists_blocks succeeded
  let d : Draft := { formulas, symbols }
  have source {i : Nat} {t : Term} (contained : ContainedAt blocks i t) :
      ∃ f, formulas[i]? = some f ∧
        (f.separated config.prenexOrder (d.turn config.prenexOrder i)).Contains t := by
    obtain ⟨block, there, _⟩ := id contained
    have within : i < formulas.length := length ▸ (List.getElem?_eq_some_iff.mp there).1
    have here : formulas[i]? = some formulas[i] := List.getElem?_eq_getElem within
    exact ⟨_, here, contains_of_containedAt succeeded divided here contained⟩
  refine ⟨blocks, divided, whole, length, fun i t contained => ?_,
    fun i t sk contained new headed => ?_⟩
  · obtain ⟨f, here, contains⟩ := source contained
    obtain ⟨uses, fresh, _, _, comes⟩ := Draft.exists_uses (d := d) here known
    rcases comes t contains with head | ⟨use, listed, rfl⟩
    · exact Or.inl head
    · exact Or.inr ⟨use.skolem, newSkolem_of_turn succeeded here (fresh.new use listed),
        use.heads_term⟩
  · obtain ⟨f, here, contains⟩ := source contained
    -- The use of the symbol is the only term of the formula that it heads.
    obtain ⟨uses, fresh, distinct, constant, comes⟩ := Draft.exists_uses (d := d) here known
    have each : ∀ use ∈ uses, symbols.NewSkolem
        (normalize config clock formulas symbols sink).symbols use.skolem := fun use listed =>
      newSkolem_of_turn succeeded here (fresh.new use listed)
    obtain ⟨use, listed, rfl, rfl⟩ := (comes t contains).exists_use each new headed
    refine ⟨use.args, rfl, (fresh.prefixes use listed).sublist.nodup distinct,
      fun first => constant first use listed, fun j u inside head => ?_,
      fun other ys inside later => ?_⟩
    · obtain ⟨g, there, part⟩ := source inside
      obtain ⟨uses', fresh', _, _, comes'⟩ := Draft.exists_uses (d := d) there known
      obtain ⟨use', listed', same, rfl⟩ := (comes' u part).exists_use
        (fun use listed => newSkolem_of_turn succeeded there (fresh'.new use listed)) new head
      -- The symbol has been given out for both formulas, which are one and the same therefore.
      obtain rfl : i = j := Draft.place_eq_of_newSkolem here there (fresh.new use listed)
        (same ▸ fresh'.new use' listed')
      obtain rfl : f = g := Option.some.inj (here.symm.trans there)
      obtain ⟨again, member, alike, equal⟩ := (comes _ part).exists_use each new head
      rw [equal, fresh.eq_of_skolem member listed alike]
      exact ⟨rfl, rfl⟩
    · -- Two uses in one formula have arguments from the start of one list of variables.
      obtain ⟨g, there, part⟩ := source inside
      obtain rfl : f = g := Option.some.inj (here.symm.trans there)
      obtain ⟨again, member, alike, equal⟩ :=
        (comes _ part).exists_use each later (SkolemUse.heads_term ⟨other, ys⟩)
      -- Both are applied to the first ones of the variables that are bound in the end.
      have args : again.args = ys := by
        rw [← again.vars_term, ← equal, SkolemUse.vars_term]
      rw [← args]
      exact List.prefix_or_prefix_of_prefix (fresh.prefixes use listed)
        (fresh.prefixes again member)

end Blocks

section Unbounded

/-- The Skolem symbol with a number, applied to a variable. -/
def numberedUse (number : Nat) (x : Variable) : SkolemUse := ⟨⟨⟨number⟩, ⟨number⟩⟩, [x]⟩

/-- The value of a variable is smaller than what a Skolem symbol makes of it. -/
def lessThanWitness (number : Nat) (x : Variable) : Atom where
  predicate := { id := 0, arity := 2 }
  args := [.var x, (numberedUse number x).term]

/-- Two formulas that are alike have different Skolem symbols, each of them used in one place. -/
theorem normalize_uses_skolem_unbounded : ∃ result blocks,
    (normalize { prenexOrder := .preserve } (.still 0) [unbounded, unbounded] comparisonSymbols
      .discarding).result = .ok result ∧
    result.Blocks blocks ∧
    ContainedAt blocks 0 (numberedUse 0 ⟨0⟩).term ∧ ContainedAt blocks 1 (numberedUse 1 ⟨2⟩).term ∧
    ∀ j u, ContainedAt blocks j u → (numberedUse 0 ⟨0⟩).skolem.Heads u →
      j = 0 ∧ u = (numberedUse 0 ⟨0⟩).term := by
  -- Both formulas and the symbols given out for them are found by computation.
  have known : ∀ f ∈ [unbounded, unbounded], f.Known comparisonSymbols := by decide +kernel
  have made : (normalize { prenexOrder := .preserve } (.still 0) [unbounded, unbounded]
      comparisonSymbols .discarding).result.toOption.any
        (·.formulas = [.atom (lessThanWitness 0 ⟨0⟩), .atom (lessThanWitness 1 ⟨2⟩)]) = true := by
    decide +kernel
  have new : comparisonSymbols.NewSkolem (normalize { prenexOrder := .preserve } (.still 0)
      [unbounded, unbounded] comparisonSymbols .discarding).symbols (numberedUse 0 ⟨0⟩).skolem := by
    refine ⟨SymbolTable.new_iff.mpr ?_, SymbolTable.new_iff.mpr ?_, ?_⟩ <;> decide +kernel
  obtain ⟨result, succeeded, formulas⟩ := exists_ok_of_any made
  obtain ⟨blocks, divided, _, _, _, uses⟩ := normalize_uses_skolem known succeeded
  -- Each clause has one literal, over the relation between a number and its witness.
  let clause (number : Nat) (x : Variable) : Clause :=
    { literals := [{ positive := true, atom := lessThanWitness number x }] }
  have listed : result.Blocks [[clause 0 ⟨0⟩], [clause 1 ⟨2⟩]] := by
    rw [Normalized.Blocks, of_decide_eq_true formulas]
    exact .cons rfl (.cons rfl .nil)
  obtain rfl := divided.unique listed
  -- The witness is an argument of that literal.
  have inside (number : Nat) (x : Variable) :
      (clause number x).Contains (numberedUse number x).term :=
    ⟨_, List.mem_singleton_self _, _, by simp [lessThanWitness], .self _⟩
  have first : ContainedAt [[clause 0 ⟨0⟩], [clause 1 ⟨2⟩]] 0 (numberedUse 0 ⟨0⟩).term :=
    ⟨_, rfl, _, List.mem_singleton_self _, inside 0 ⟨0⟩⟩
  have second : ContainedAt [[clause 0 ⟨0⟩], [clause 1 ⟨2⟩]] 1 (numberedUse 1 ⟨2⟩).term :=
    ⟨_, rfl, _, List.mem_singleton_self _, inside 1 ⟨2⟩⟩
  obtain ⟨_, _, _, _, same, _⟩ := uses 0 _ _ first new (numberedUse 0 ⟨0⟩).heads_term
  exact ⟨result, _, succeeded, divided, first, second, same⟩

end Unbounded

end ClauseForm
