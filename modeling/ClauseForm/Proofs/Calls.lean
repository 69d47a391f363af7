import ClauseForm.Proofs.Skolemized
import ClauseForm.Proofs.Standardized
import ClauseForm.Proofs.Supply

/-! Renaming and witnesses call the supplies of a table, which give out no symbol twice. -/

namespace ClauseForm

/-- A symbol of some kind. -/
abbrev AnySymbol := Sigma Symbol

namespace SymbolTable

section Next

variable (table : SymbolTable) {s : AnySymbol}

/-- A call to the supply of variables makes one variable known, and nothing else. -/
theorem new_freshVariable_iff :
    table.New table.freshVariable.2 s.2 ↔ s = ⟨.var, table.freshVariable.1⟩ := by
  -- The numbers of the symbols that are new lie between the old counts and the new ones.
  refine ⟨fun new => ?_, fun same => same ▸ table.freshVariable_new⟩
  obtain ⟨kind, ⟨id⟩⟩ := s
  obtain ⟨first, counts⟩ := table.freshVariable_next
  obtain ⟨least, below⟩ := new_iff.mp new
  rw [counts] at below
  -- No kind but that of the variables has a further symbol.
  cases kind with
  | var =>
    obtain rfl : id = table.count .var := Nat.le_antisymm (Nat.le_of_lt_succ below) least
    rw [first]
  | const | func | pred => exact absurd least (Nat.not_le_of_lt below)

/-- A call to the supply of Skolem symbols makes a constant and a function known, and no more. -/
theorem new_freshSkolem_iff : table.New table.freshSkolem.2 s.2 ↔
    s = ⟨.const, table.freshSkolem.1.constant⟩ ∨ s = ⟨.func, table.freshSkolem.1.function⟩ := by
  refine ⟨fun new => ?_, ?_⟩
  · obtain ⟨kind, ⟨id⟩⟩ := s
    obtain ⟨first, counts⟩ := table.freshSkolem_next
    obtain ⟨least, below⟩ := new_iff.mp new
    rw [counts] at below
    -- Constants and functions have one further symbol each.
    cases kind with
    | const =>
      obtain rfl : id = table.count .const := Nat.le_antisymm (Nat.le_of_lt_succ below) least
      exact Or.inl (by rw [first])
    | func =>
      obtain rfl : id = table.count .func := Nat.le_antisymm (Nat.le_of_lt_succ below) least
      exact Or.inr (by rw [first])
    | var | pred => exact absurd least (Nat.not_le_of_lt below)
  · rintro (rfl | rfl)
    · exact table.freshSkolem_new.1
    · exact table.freshSkolem_new.2

end Next

/--
Calls to the supplies of a table that lead from one state of it to another, with the symbols that
they give out, in their order.
-/
inductive Supplies : SymbolTable → List AnySymbol → SymbolTable → Prop
  | none (table : SymbolTable) : Supplies table [] table
  | freshVariable {table final : SymbolTable} {given : List AnySymbol}
      (rest : Supplies table.freshVariable.2 given final) :
    Supplies table (⟨.var, table.freshVariable.1⟩ :: given) final
  | freshSkolem {table final : SymbolTable} {given : List AnySymbol}
      (rest : Supplies table.freshSkolem.2 given final) :
    Supplies table (⟨.const, table.freshSkolem.1.constant⟩ ::
      ⟨.func, table.freshSkolem.1.function⟩ :: given) final

namespace Supplies

variable {a b c : SymbolTable} {given more : List AnySymbol}

/-- What is given out first comes first. -/
theorem trans (first : Supplies a given b) (second : Supplies b more c) :
    Supplies a (given ++ more) c := by
  -- The second calls are made where the first ones end.
  induction first with
  | none => exact second
  | freshVariable _ ih => exact .freshVariable (ih second)
  | freshSkolem _ ih => exact .freshSkolem (ih second)

/-- Calls to the supplies give out constants and functions in pairs. -/
theorem paired (calls : Supplies a given b) : a.Paired b := by
  -- A call for a variable leaves both counts alone, and one for a Skolem symbol raises both.
  induction calls with
  | none => exact .refl _
  | @freshVariable table _ _ _ ih =>
    have single : table.Paired table.freshVariable.2 := table.grows_freshVariable.paired
      (table.freshVariable_next.2 .const) (table.freshVariable_next.2 .func)
    exact single.trans ih
  | @freshSkolem table _ _ _ ih => exact table.freshSkolem_paired.trans ih

/-- Every symbol given out was unknown before and is known afterwards. -/
theorem new (calls : Supplies a given b) : ∀ s ∈ given, a.New b s.2 := by
  -- A symbol stays known, and one that is unknown later was unknown before.
  induction calls with
  | none => exact nofun
  | @freshVariable table _ _ rest ih =>
    refine List.forall_mem_cons.mpr ⟨table.freshVariable_new.later rest.paired.grows, ?_⟩
    exact fun s listed => (ih s listed).earlier table.grows_freshVariable
  | @freshSkolem table _ _ rest ih =>
    obtain ⟨constant, function⟩ := table.freshSkolem_new
    refine List.forall_mem_cons.mpr ⟨constant.later rest.paired.grows,
      List.forall_mem_cons.mpr ⟨function.later rest.paired.grows, ?_⟩⟩
    exact fun s listed => (ih s listed).earlier table.grows_freshSkolem

/-- No symbol is given out twice. -/
theorem nodup (calls : Supplies a given b) : given.Nodup := by
  -- What a call gives out is known from then on, and later calls give out unknown symbols.
  induction calls with
  | none => exact List.nodup_nil
  | @freshVariable table _ _ rest ih =>
    exact List.nodup_cons.mpr ⟨fun again => (rest.new _ again).1 table.freshVariable_new.2, ih⟩
  | @freshSkolem table _ _ rest ih =>
    obtain ⟨constant, function⟩ := table.freshSkolem_new
    refine List.nodup_cons.mpr ⟨fun again => ?_,
      List.nodup_cons.mpr ⟨fun again => (rest.new _ again).1 function.2, ih⟩⟩
    rcases List.mem_cons.mp again with same | again
    · cases congrArg Sigma.fst same
    · exact (rest.new _ again).1 constant.2

/-- The symbols given out are exactly those that have become known. -/
theorem mem_iff (calls : Supplies a given b) {s : AnySymbol} : s ∈ given ↔ a.New b s.2 := by
  refine ⟨calls.new s, fun new => ?_⟩
  -- What is unknown before a call is known after it or not, and is given out there or later.
  induction calls with
  | none => exact absurd new.2 new.1
  | @freshVariable table _ _ rest ih =>
    by_cases now : table.freshVariable.2.Knows s.2
    · exact List.mem_cons.mpr (Or.inl (table.new_freshVariable_iff.mp ⟨new.1, now⟩))
    · exact List.mem_cons_of_mem _ (ih ⟨now, new.2⟩)
  | @freshSkolem table _ _ rest ih =>
    by_cases now : table.freshSkolem.2.Knows s.2
    · rcases table.new_freshSkolem_iff.mp ⟨new.1, now⟩ with rfl | rfl
      · exact List.mem_cons_self
      · exact List.mem_cons_of_mem _ List.mem_cons_self
    · exact List.mem_cons_of_mem _ (List.mem_cons_of_mem _ (ih ⟨now, new.2⟩))

end Supplies

/-- One state of a table comes from another one by calls to its supplies. -/
def Supplied (before after : SymbolTable) : Prop := ∃ given, Supplies before given after

namespace Supplied

variable {a b c : SymbolTable}

/-- A table comes from itself by no calls. -/
theorem refl (table : SymbolTable) : table.Supplied table := ⟨[], .none table⟩

/-- Calls come after calls. -/
theorem trans (first : a.Supplied b) (second : b.Supplied c) : a.Supplied c := by
  -- The symbols given out later follow those given out first.
  obtain ⟨given, calls⟩ := first
  obtain ⟨more, others⟩ := second
  exact ⟨given ++ more, calls.trans others⟩

/-- A call for a variable is a call to the supplies. -/
theorem freshVariable (table : SymbolTable) : table.Supplied table.freshVariable.2 :=
  ⟨_, .freshVariable (.none _)⟩

/-- A call for a Skolem symbol is a call to the supplies. -/
theorem freshSkolem (table : SymbolTable) : table.Supplied table.freshSkolem.2 :=
  ⟨_, .freshSkolem (.none _)⟩

/-- Calls to the supplies give out constants and functions in pairs. -/
theorem paired (supplied : a.Supplied b) : a.Paired b := by
  obtain ⟨given, calls⟩ := supplied
  exact calls.paired

end Supplied

end SymbolTable

/-- A quantifier is settled by one call to the supply of variables, or by none. -/
theorem Naming.settle_supplied (naming : Naming) (claims : Quantifier → Bool) (q : Quantifier)
    (x : Variable) : naming.symbols.Supplied (naming.settle claims q x).2.symbols := by
  -- A call is made only if the quantifier claims a variable that is taken.
  rw [settle, claim]
  split
  · split
    · exact .freshVariable _
    · exact .refl _
  · exact .refl _

namespace Formula

/-- A walk through a formula calls the supplies, and changes the table in no other way. -/
theorem claimBinders_supplied (claims : Quantifier → Bool) (f : Formula)
    (names : Variable → Variable) (naming : Naming) :
    naming.symbols.Supplied (f.claimBinders claims names naming).2.symbols := by
  -- A call is made at a quantifier only.
  induction f generalizing names naming with
  | atom a => exact .refl _
  | not f ih => exact ih names naming
  | binary op l r left right => exact (left names naming).trans (right names _)
  | quantified q x f ih => exact (naming.settle_supplied claims q x).trans (ih _ _)

/-- Each witness is made by one call to the supply of Skolem symbols. -/
theorem Skolemizes.supplied {f g : Formula} {scope : List Variable} {symbols final : SymbolTable}
    (steps : Skolemizes symbols scope f final g) : symbols.Supplied final := by
  -- The calls of one witness come before those of the witnesses further inside.
  induction steps with
  | existential made _ ih =>
    obtain ⟨rfl, _⟩ := freshWitness_cases made
    exact (SymbolTable.Supplied.freshSkolem _).trans ih
  | universal _ ih => exact ih
  | done plain => exact .refl _

end Formula

end ClauseForm
