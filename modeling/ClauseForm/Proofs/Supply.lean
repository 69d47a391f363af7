import ClauseForm.Proofs.SymbolTable

/-! Supplies give out the symbols with the next numbers, and constants and functions in pairs. -/

namespace ClauseForm

namespace SymbolTable

section Numbers

variable {table before after : SymbolTable} {kind : Kind} {name : String}

/-- A table that has grown knows at least as many symbols of each kind. -/
theorem Grows.count_le (grows : before.Grows after) (kind : Kind) :
    before.count kind ≤ after.count kind := by
  -- The symbol with the number that the table has grown to would else have been known before.
  by_contra fewer
  have known : before.Knows (⟨after.count kind⟩ : Symbol kind) :=
    knows_iff.mpr (Nat.lt_of_not_le fewer)
  exact Nat.lt_irrefl _ (knows_iff.mp (grows.knows known))

/-- The symbols given out since an earlier state are those with the numbers in between. -/
theorem new_iff {s : Symbol kind} :
    before.New after s ↔ before.count kind ≤ s.id ∧ s.id < after.count kind := by
  rw [New, knows_iff, knows_iff, not_lt]

/-- Interning an unknown name gives out the symbol with the next number, and no other one. -/
theorem intern_unknown (unknown : table.contains kind name = false) :
    (table.intern kind name).1 = ⟨table.count kind⟩ ∧
      ∀ other, (table.intern kind name).2.count other =
        table.count other + if other = kind then 1 else 0 := by
  -- The name is added after all others of its kind.
  have added := Names.intern_of_unknown (Names.find?_eq_none unknown)
  refine ⟨by simp [intern, added, count], fun other => ?_⟩
  by_cases same : other = kind
  · subst same
    simp [intern, count, added, Names.size_add]
  · simp [intern, count, names_withNames_of_ne table _ same, same]

/-- The supply of variables gives out the variable with the next number, and nothing else. -/
theorem freshVariable_next (table : SymbolTable) :
    table.freshVariable.1 = ⟨table.count .var⟩ ∧
      ∀ kind, table.freshVariable.2.count kind =
        table.count kind + if kind = .var then 1 else 0 := by
  obtain ⟨number, unknown, made⟩ := table.exists_freshVariable
  rw [made]
  -- The counter of the supply has no part in the count of symbols.
  obtain ⟨first, counts⟩ : _ ∧ ∀ kind, ({ table with lastVariable := number }.intern .var
      (variableLabel number)).2.count kind = _ := intern_unknown unknown
  refine ⟨first, fun kind => (counts kind).trans ?_⟩
  cases kind <;> rfl

/-- The supply of Skolem symbols gives out the next constant and the next function. -/
theorem freshSkolem_next (table : SymbolTable) :
    table.freshSkolem.1 = ⟨⟨table.count .const⟩, ⟨table.count .func⟩⟩ ∧
      ∀ kind, table.freshSkolem.2.count kind =
        table.count kind + if kind = .const ∨ kind = .func then 1 else 0 := by
  obtain ⟨number, constant, function, made⟩ := table.exists_freshSkolem
  rw [made]
  let moved := { table with nextSkolem := number + 1 }
  -- The constant is interned first, with the counter already moved.
  have constant : moved.contains .const (skolemLabel number) = false := constant
  obtain ⟨first, counts⟩ := intern_unknown constant
  have still : (moved.intern .const (skolemLabel number)).2.contains .func (skolemLabel number) =
      false := by
    rw [contains_intern_of_ne moved _ _ (by decide)]
    exact function
  obtain ⟨second, others⟩ := intern_unknown still
  refine ⟨?_, fun kind => (others kind).trans ?_⟩
  · -- Interning the constant has not changed the number of functions.
    rw [counts] at second
    exact Skolem.mk.injEq .. |>.mpr ⟨first, second⟩
  · rw [counts]
    cases kind <;> rfl

end Numbers

section Pairs

variable {a b c : SymbolTable} {sk other : Skolem}

/-- A name determines the symbol of a kind that carries it. -/
theorem name?_injective {kind : Kind} {s t : Symbol kind} (known : a.Knows s)
    (same : a.name? s = a.name? t) : s = t := by
  -- The search for the name finds one number only.
  obtain ⟨name, stored⟩ := Option.isSome_iff_exists.mp known
  have first := Names.find?_eq_some_iff.mpr stored
  have second := Names.find?_eq_some_iff.mpr (same.symm.trans stored)
  rw [first] at second
  cases s
  cases t
  exact congrArg Symbol.mk (Option.some.inj second)

/-- A Skolem symbol given out between two states of a table: a new name, known in both ways. -/
structure NewSkolem (before after : SymbolTable) (sk : Skolem) : Prop where
  constant : before.New after sk.constant
  function : before.New after sk.function
  name : after.name? sk.constant = after.name? sk.function

/-- A name that a symbol has stays its name when the table grows. -/
theorem Grows.name?_eq (grows : a.Grows b) {kind : Kind} {s : Symbol kind} (known : a.Knows s) :
    b.name? s = a.name? s := by
  obtain ⟨name, stored⟩ := Option.isSome_iff_exists.mp known
  rw [stored, grows kind s name stored]

/-- What the supply of Skolem symbols gives out is a new Skolem symbol. -/
theorem freshSkolem_newSkolem (table : SymbolTable) :
    table.NewSkolem table.freshSkolem.2 table.freshSkolem.1 := by
  refine ⟨table.freshSkolem_new.1, table.freshSkolem_new.2, ?_⟩
  -- Both symbols carry the label that was found free.
  obtain ⟨number, _, _, constant, function⟩ := table.freshSkolem_named
  exact constant.trans function.symm

/-- A new Skolem symbol stays new when the table grows further. -/
theorem NewSkolem.later (new : a.NewSkolem b sk) (grows : b.Grows c) : a.NewSkolem c sk where
  constant := new.constant.later grows
  function := new.function.later grows
  name := by
    rw [grows.name?_eq new.constant.2, grows.name?_eq new.function.2]
    exact new.name

/-- A new Skolem symbol was new to every earlier state. -/
theorem NewSkolem.earlier (new : b.NewSkolem c sk) (grows : a.Grows b) : a.NewSkolem c sk :=
  ⟨new.constant.earlier grows, new.function.earlier grows, new.name⟩

/-- A new Skolem symbol is known by its constant as well as by its function. -/
theorem NewSkolem.eq (one : a.NewSkolem c sk) (two : b.NewSkolem c other)
    (same : sk.constant = other.constant ∨ sk.function = other.function) : sk = other := by
  -- The constant and the function have one name, and the name determines them.
  cases sk with
  | mk constant function =>
    cases other with
    | mk constant' function' =>
      have names : c.name? constant = c.name? function := one.name
      have names' : c.name? constant' = c.name? function' := two.name
      rcases same with same | same
      · obtain rfl : constant = constant' := same
        exact congrArg _ (name?_injective one.function.2 (names.symm.trans names'))
      · obtain rfl : function = function' := same
        exact congrArg (Skolem.mk · function)
          (name?_injective one.constant.2 (names.trans names'.symm))

/--
A table that has grown by as many constants as functions, which have the same names in the same
order.
-/
structure Paired (before after : SymbolTable) : Prop where
  grows : before.Grows after
  counts : after.count .const + before.count .func = after.count .func + before.count .const
  names : ∀ n, before.count .const + n < after.count .const →
    after.name? (⟨before.count .const + n⟩ : Constant) =
      after.name? (⟨before.count .func + n⟩ : Symbol .func)

/-- Where neither constants nor functions are given out, there is nothing to be paired. -/
theorem Grows.paired (grows : a.Grows b) (constants : b.count .const = a.count .const)
    (functions : b.count .func = a.count .func) : a.Paired b where
  grows := grows
  counts := by omega
  names n below := by omega

/-- Where nothing happens, there is nothing to be paired. -/
theorem Paired.refl (table : SymbolTable) : table.Paired table :=
  (Grows.refl table).paired rfl rfl

/-- Constants and functions given out in pairs twice have been given out in pairs. -/
theorem Paired.trans (first : a.Paired b) (second : b.Paired c) : a.Paired c where
  grows := first.grows.trans second.grows
  counts := by
    have one := first.counts
    have two := second.counts
    omega
  names n below := by
    have counts := first.counts
    by_cases early : a.count .const + n < b.count .const
    · have constant : b.Knows (⟨a.count .const + n⟩ : Constant) := knows_iff.mpr early
      -- The earlier pairs are as many on both sides.
      have function : b.Knows (⟨a.count .func + n⟩ : Symbol .func) :=
        knows_iff.mpr (by show a.count .func + n < b.count .func; omega)
      rw [second.grows.name?_eq constant, second.grows.name?_eq function]
      exact first.names n early
    · -- A later pair has the same place after the state in between.
      obtain ⟨m, later⟩ : ∃ m, a.count .const + n = b.count .const + m :=
        ⟨a.count .const + n - b.count .const, by omega⟩
      have same : a.count .func + n = b.count .func + m := by omega
      rw [later, same]
      exact second.names m (by omega)

/-- The supply of Skolem symbols gives out one constant and one function of one name. -/
theorem freshSkolem_paired (table : SymbolTable) : table.Paired table.freshSkolem.2 where
  grows := table.grows_freshSkolem
  counts := by
    -- One symbol of either kind has been given out, so that there is one place to look at.
    have constants : table.freshSkolem.2.count .const = table.count .const + 1 :=
      table.freshSkolem_next.2 .const
    have functions : table.freshSkolem.2.count .func = table.count .func + 1 :=
      table.freshSkolem_next.2 .func
    omega
  names n below := by
    have constants : table.freshSkolem.2.count .const = table.count .const + 1 :=
      table.freshSkolem_next.2 .const
    obtain rfl : n = 0 := by omega
    have named := table.freshSkolem_newSkolem.name
    rwa [table.freshSkolem_next.1] at named

/-- The Skolem symbols given out between two states are those with the numbers in between. -/
theorem Paired.newSkolem_iff (paired : a.Paired b) : a.NewSkolem b sk ↔
    ∃ n, a.count .const + n < b.count .const ∧
      sk = ⟨⟨a.count .const + n⟩, ⟨a.count .func + n⟩⟩ := by
  have counts := paired.counts
  -- Every place in between is that of a Skolem symbol.
  have made (n : Nat) (below : a.count .const + n < b.count .const) :
      a.NewSkolem b ⟨⟨a.count .const + n⟩, ⟨a.count .func + n⟩⟩ := by
    refine ⟨new_iff.mpr ⟨Nat.le_add_right _ _, below⟩, new_iff.mpr ⟨Nat.le_add_right _ _, ?_⟩,
      paired.names n below⟩
    show a.count .func + n < b.count .func
    omega
  constructor
  · -- The constant has been given out at some place, and what was given out there is a pair.
    intro new
    obtain ⟨least, below⟩ := new_iff.mp new.constant
    refine ⟨sk.constant.id - a.count .const, by omega, ?_⟩
    -- The constant determines which pair it is.
    have place : sk.constant.id = a.count .const + (sk.constant.id - a.count .const) := by omega
    exact new.eq (made _ (by omega)) (Or.inl (congrArg Symbol.mk place))
  · rintro ⟨n, below, rfl⟩
    exact made n below

end Pairs

end SymbolTable

end ClauseForm
