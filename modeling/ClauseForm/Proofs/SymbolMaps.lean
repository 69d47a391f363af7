import ClauseForm.Negation
import ClauseForm.Prenex
import ClauseForm.Proofs.Extraction
import ClauseForm.Proofs.Known
import Mathlib.Data.Set.Function

/-! Symbols can be replaced by others of their kinds before a formula is rewritten or afterwards. -/

namespace ClauseForm

/-- A replacement of the symbols of each kind by symbols of that kind. -/
abbrev SymbolMap := (kind : Kind) → Symbol kind → Symbol kind

/-- A set of symbols of each kind. -/
abbrev SymbolSet := (kind : Kind) → Set (Symbol kind)

/-- The symbols that a table has given out. -/
def SymbolTable.known (table : SymbolTable) : SymbolSet := fun _ => {s | table.Knows s}

/-- Replaces variables only. -/
def SymbolMap.ofVariables (names : Variable → Variable) : SymbolMap
  | .var => names
  | .const | .func | .pred => id

/-- Leaves all symbols as they are. -/
def SymbolMap.identity : SymbolMap := fun _ s => s

/-- Replaces symbols and then what they were replaced by. -/
def SymbolMap.andThen (first second : SymbolMap) : SymbolMap :=
  fun kind s => second kind (first kind s)

namespace Term

/-- Replaces every symbol of a term, while function symbols keep their arities. -/
def mapSymbols (image : SymbolMap) : Term → Term :=
  fold (fun x => .var (image .var x)) (fun c => .const (image .const c))
    fun f args => .app { toSymbol := image .func f.toSymbol, arity := f.arity } args

/-- Terms all of whose symbols belong to a set. -/
def Over (range : SymbolSet) : Term → Prop :=
  fold (· ∈ range .var) (· ∈ range .const) fun f parts =>
    f.toSymbol ∈ range .func ∧ ∀ part ∈ parts, part

section Laws

variable {image other : SymbolMap} {range : SymbolSet}

/-- A variable is replaced by its image. -/
@[simp] theorem mapSymbols_var (x : Variable) :
    (var x).mapSymbols image = .var (image .var x) := rfl

/-- A constant is replaced by its image. -/
@[simp] theorem mapSymbols_const (c : Constant) :
    (const c).mapSymbols image = .const (image .const c) := rfl

/-- The function and the arguments of an application are replaced apart. -/
@[simp] theorem mapSymbols_app (f : FunctionSymbol) (args : List Term) :
    (app f args).mapSymbols image =
      .app { toSymbol := image .func f.toSymbol, arity := f.arity }
        (args.map (mapSymbols image)) := by
  simp [mapSymbols, fold, foldAll_eq_map]

/-- A variable has no symbol but itself. -/
@[simp] theorem over_var {x : Variable} : (var x).Over range ↔ x ∈ range .var := Iff.rfl

/-- A constant has no symbol but itself. -/
@[simp] theorem over_const {c : Constant} : (const c).Over range ↔ c ∈ range .const := Iff.rfl

/-- The symbols of an application are its function and those of its arguments. -/
@[simp] theorem over_app {f : FunctionSymbol} {args : List Term} :
    (app f args).Over range ↔ f.toSymbol ∈ range .func ∧ ∀ t ∈ args, t.Over range := by
  -- The fold over the arguments is a map over them.
  simp only [Over, fold, foldAll_eq_map, List.mem_map, forall_exists_index, and_imp,
    forall_apply_eq_imp_iff₂]

/-- The variables of a term are replaced where they stand. -/
theorem vars_mapSymbols (t : Term) : (t.mapSymbols image).vars = t.vars.map (image .var) := by
  induction t with
  | var x => rfl
  | const c => rfl
  | app f args ih =>
    -- The variables of an application are those of its arguments one after the other.
    rw [mapSymbols_app, vars_app, vars_app, List.flatMap_map, List.map_flatMap]
    exact List.flatMap_congr ih

/-- Terms may be put in place of variables before symbols are replaced, or replaced ones after. -/
theorem mapSymbols_bind {values others : Variable → Term} {t : Term}
    (agree : ∀ x ∈ t.vars, (values x).mapSymbols image = others (image .var x)) :
    (t.bind values).mapSymbols image = (t.mapSymbols image).bind others := by
  induction t with
  | var x => exact agree x (by simp)
  | const c => rfl
  | app f args ih =>
    -- Both ways of treating an application treat its arguments one by one.
    simp only [bind_app, mapSymbols_app, List.map_map]
    refine congrArg (app _) (List.map_congr_left fun t listed => ih t listed fun x inside => ?_)
    exact agree x (by rw [vars_app]; exact List.mem_flatMap.mpr ⟨t, listed, inside⟩)

/-- Other variables are put in place by replacing variables only. -/
theorem mapSymbols_ofVariables (names : Variable → Variable) (t : Term) :
    t.mapSymbols (.ofVariables names) = t.bind fun x => .var (names x) := by
  induction t with
  | var x => rfl
  | const c => rfl
  | app f args ih =>
    -- The map leaves the function as it is.
    rw [mapSymbols_app, bind_app]
    exact congrArg (app f) (List.map_congr_left ih)

/-- A term is unchanged when every symbol stays as it is. -/
@[simp] theorem mapSymbols_identity (t : Term) : t.mapSymbols .identity = t := by
  induction t with
  | var x => rfl
  | const c => rfl
  | app f args ih =>
    -- The function stays, and so do the arguments.
    rw [mapSymbols_app]
    exact congrArg (app f) ((List.map_congr_left ih).trans args.map_id)

/-- Symbols replaced twice are replaced by what the second map makes of the first image. -/
theorem mapSymbols_mapSymbols (t : Term) :
    (t.mapSymbols image).mapSymbols other = t.mapSymbols (image.andThen other) := by
  induction t with
  | var x => rfl
  | const c => rfl
  | app f args ih =>
    -- The arguments are mapped twice, one by one.
    simp only [mapSymbols_app, List.map_map]
    exact congrArg (app _) (List.map_congr_left ih)

/-- Maps that agree on the symbols of a term make the same of it. -/
theorem mapSymbols_congr {t : Term} (belongs : t.Over range)
    (agree : ∀ kind, ∀ s ∈ range kind, image kind s = other kind s) :
    t.mapSymbols image = t.mapSymbols other := by
  induction t with
  | var x => exact congrArg var (agree _ _ belongs)
  | const c => exact congrArg const (agree _ _ belongs)
  | app f args ih =>
    -- The maps agree on the function and, by induction, on the arguments.
    obtain ⟨function, parts⟩ := over_app.mp belongs
    rw [mapSymbols_app, mapSymbols_app, agree _ _ function]
    exact congrArg (app _) (List.map_congr_left fun t listed => ih t listed (parts t listed))

/-- The symbols of a term are replaced by those of the range of the map. -/
theorem Over.mapSymbols {t : Term} {target : SymbolSet} (belongs : t.Over range)
    (maps : ∀ kind, ∀ s ∈ range kind, image kind s ∈ target kind) :
    (t.mapSymbols image).Over target := by
  induction t with
  | var x => exact maps _ _ belongs
  | const c => exact maps _ _ belongs
  | app f args ih =>
    -- The function goes to its image, and the arguments are terms of the target by induction.
    obtain ⟨function, parts⟩ := over_app.mp belongs
    rw [mapSymbols_app, over_app, List.forall_mem_map]
    exact ⟨maps _ _ function, fun t listed => ih t listed (parts t listed)⟩

/-- The variables of a term over a set belong to it. -/
theorem Over.vars {t : Term} (belongs : t.Over range) : ∀ x ∈ t.vars, x ∈ range .var := by
  induction t with
  | var x => simpa using belongs
  | const c => simp
  | app f args ih =>
    -- Each variable comes from one of the arguments.
    intro x inside
    rw [vars_app, List.mem_flatMap] at inside
    obtain ⟨t, listed, inside⟩ := inside
    exact ih t listed ((over_app.mp belongs).2 t listed) x inside

/-- Terms over a set in place of variables leave a term over that set. -/
theorem Over.bind {values : Variable → Term} {t : Term} (belongs : t.Over range)
    (parts : ∀ x ∈ t.vars, (values x).Over range) : (t.bind values).Over range := by
  induction t with
  | var x => exact parts x (by simp)
  | const c => exact belongs
  | app f args ih =>
    -- Nothing is put in place of the function.
    obtain ⟨function, each⟩ := over_app.mp belongs
    rw [bind_app, over_app, List.forall_mem_map]
    refine ⟨function, fun t listed => ih t listed (each t listed) fun x inside => parts x ?_⟩
    rw [vars_app]
    exact List.mem_flatMap.mpr ⟨t, listed, inside⟩

/-- A term that a map leaves as it is has symbols only that the map leaves as they are. -/
theorem over_of_mapSymbols_eq {t : Term} (same : t.mapSymbols image = t)
    (fixed : ∀ kind s, image kind s = s → s ∈ range kind) : t.Over range := by
  induction t with
  | var x => exact fixed _ _ (by simpa using same)
  | const c => exact fixed _ _ (by simpa using same)
  | app f args ih =>
    -- An application is left as it is only if its function and all its arguments are.
    rw [mapSymbols_app, app.injEq] at same
    obtain ⟨function, parts⟩ := same
    refine over_app.mpr ⟨fixed _ _ (congrArg FunctionSymbol.toSymbol function), fun t listed => ?_⟩
    exact ih t listed (List.map_inj_left.mp (parts.trans args.map_id.symm) t listed)

/-- A term is known to a table when its symbols are among those given out. -/
theorem known_iff_over {table : SymbolTable} {t : Term} : t.Known table ↔ t.Over table.known := by
  induction t with
  | var x => exact Iff.rfl
  | const c => exact Iff.rfl
  | app f args ih =>
    -- Both are said of the function and of each argument.
    rw [known_app, over_app]
    exact and_congr Iff.rfl (forall₂_congr ih)

end Laws

end Term

namespace Atom

/-- Replaces every symbol of an atom, while its predicate and functions keep their arities. -/
def mapSymbols (image : SymbolMap) (a : Atom) : Atom where
  predicate := { toSymbol := image .pred a.predicate.toSymbol, arity := a.predicate.arity }
  args := a.args.map (Term.mapSymbols image)

/-- Atoms all of whose symbols belong to a set. -/
def Over (range : SymbolSet) (a : Atom) : Prop :=
  a.predicate.toSymbol ∈ range .pred ∧ ∀ t ∈ a.args, t.Over range

section Laws

variable {image other : SymbolMap} {range : SymbolSet} {a : Atom}

/-- The variables of an atom are replaced where they stand. -/
theorem vars_mapSymbols (a : Atom) : (a.mapSymbols image).vars = a.vars.map (image .var) := by
  rw [vars, mapSymbols, List.flatMap_map, vars, List.map_flatMap]
  exact List.flatMap_congr fun t _ => t.vars_mapSymbols

/-- Terms may be put into an atom before symbols are replaced, or replaced ones after. -/
theorem mapSymbols_bind {values others : Variable → Term}
    (agree : ∀ x ∈ a.vars, (values x).mapSymbols image = others (image .var x)) :
    (a.bind values).mapSymbols image = (a.mapSymbols image).bind others := by
  -- The predicate is replaced either way.
  simp only [bind, mapSymbols, List.map_map, mk.injEq, true_and]
  refine List.map_congr_left fun t listed => Term.mapSymbols_bind fun x inside => ?_
  exact agree x (List.mem_flatMap.mpr ⟨t, listed, inside⟩)

/-- Variables may be renamed before symbols are replaced or afterwards. -/
theorem mapSymbols_rename {names others : Variable → Variable}
    (agree : ∀ x ∈ a.vars, image .var (names x) = others (image .var x)) :
    (a.rename names).mapSymbols image = (a.mapSymbols image).rename others :=
  mapSymbols_bind fun x inside => congrArg Term.var (agree x inside)

/-- Renaming variables replaces them and no other symbols. -/
theorem rename_eq_mapSymbols (names : Variable → Variable) :
    a.rename names = a.mapSymbols (.ofVariables names) := by
  rw [rename, bind, mapSymbols]
  exact congrArg (mk _) (List.map_congr_left fun t _ => (t.mapSymbols_ofVariables names).symm)

/-- An atom is unchanged when every symbol stays as it is. -/
@[simp] theorem mapSymbols_identity (a : Atom) : a.mapSymbols .identity = a :=
  congrArg (mk _) ((List.map_congr_left fun t _ => t.mapSymbols_identity).trans a.args.map_id)

/-- The symbols of an atom replaced twice are replaced by the second image of the first. -/
theorem mapSymbols_mapSymbols (a : Atom) :
    (a.mapSymbols image).mapSymbols other = a.mapSymbols (image.andThen other) := by
  simp only [mapSymbols, List.map_map, mk.injEq]
  exact ⟨rfl, List.map_congr_left fun t _ => t.mapSymbols_mapSymbols⟩

/-- Maps that agree on the symbols of an atom make the same of it. -/
theorem mapSymbols_congr (belongs : a.Over range)
    (agree : ∀ kind, ∀ s ∈ range kind, image kind s = other kind s) :
    a.mapSymbols image = a.mapSymbols other := by
  rw [mapSymbols, mapSymbols, agree _ _ belongs.1]
  exact congrArg (mk _) (List.map_congr_left fun t listed =>
    Term.mapSymbols_congr (belongs.2 t listed) agree)

/-- The symbols of an atom are replaced by those of the range of the map. -/
theorem Over.mapSymbols {target : SymbolSet} (belongs : a.Over range)
    (maps : ∀ kind, ∀ s ∈ range kind, image kind s ∈ target kind) :
    (a.mapSymbols image).Over target :=
  ⟨maps _ _ belongs.1, List.forall_mem_map.mpr fun t listed => (belongs.2 t listed).mapSymbols maps⟩

/-- The variables of an atom over a set belong to it. -/
theorem Over.vars (belongs : a.Over range) : ∀ x ∈ a.vars, x ∈ range .var := by
  intro x inside
  obtain ⟨t, listed, inside⟩ := List.mem_flatMap.mp inside
  exact (belongs.2 t listed).vars x inside

/-- Terms over a set in place of variables leave an atom over that set. -/
theorem Over.bind {values : Variable → Term} (belongs : a.Over range)
    (parts : ∀ x ∈ a.vars, (values x).Over range) : (a.bind values).Over range :=
  ⟨belongs.1, List.forall_mem_map.mpr fun t listed => (belongs.2 t listed).bind fun x inside =>
    parts x (List.mem_flatMap.mpr ⟨t, listed, inside⟩)⟩

/-- An atom that a map leaves as it is has symbols only that the map leaves as they are. -/
theorem over_of_mapSymbols_eq (same : a.mapSymbols image = a)
    (fixed : ∀ kind s, image kind s = s → s ∈ range kind) : a.Over range := by
  -- Both its predicate and its arguments are left as they are.
  obtain ⟨predicate, args⟩ := (mk.injEq ..).mp same
  refine ⟨fixed _ _ (congrArg PredicateSymbol.toSymbol predicate), fun t listed => ?_⟩
  exact Term.over_of_mapSymbols_eq
    (List.map_inj_left.mp (args.trans a.args.map_id.symm) t listed) fixed

/-- An atom is known to a table when its symbols are among those given out. -/
theorem known_iff_over {table : SymbolTable} : a.Known table ↔ a.Over table.known :=
  and_congr Iff.rfl (forall₂_congr fun _ _ => Term.known_iff_over)

end Laws

end Atom

namespace Formula

/-- Replaces every symbol of a formula, bound variables included. -/
def mapSymbols (image : SymbolMap) : Formula → Formula
  | .atom a => .atom (a.mapSymbols image)
  | .not f => .not (f.mapSymbols image)
  | .binary op l r => .binary op (l.mapSymbols image) (r.mapSymbols image)
  | .quantified q x f => .quantified q (image .var x) (f.mapSymbols image)

/-- Formulas all of whose symbols, bound variables included, belong to a set. -/
def Over (range : SymbolSet) : Formula → Prop
  | .atom a => a.Over range
  | .not f => f.Over range
  | .binary _ l r => l.Over range ∧ r.Over range
  | .quantified _ x f => x ∈ range .var ∧ f.Over range

/-- Replacing symbols keeps the shape of a formula. -/
theorem sameShape_mapSymbols (image : SymbolMap) (f : Formula) :
    SameShape f (f.mapSymbols image) := by
  -- The new formula is built from the same constructors.
  induction f with
  | atom a => exact .atom _ _
  | not f ih => exact .not ih
  | binary op l r left right => exact .binary op left right
  | quantified q x f ih => exact .quantified q x _ ih

/-- Replacing symbols neither adds nor removes quantifiers. -/
theorem isQuantifierFree_mapSymbols (image : SymbolMap) (f : Formula) :
    (f.mapSymbols image).isQuantifierFree = f.isQuantifierFree :=
  congrArg (! ·) (sameShape_mapSymbols image f).hasQuantifier.symm

section Laws

variable {image other : SymbolMap} {range : SymbolSet} {f : Formula}

/-- A formula is unchanged when every symbol stays as it is. -/
@[simp] theorem mapSymbols_identity (f : Formula) : f.mapSymbols .identity = f := by
  -- The symbols of each part stay as they are.
  induction f with
  | atom a => exact congrArg atom a.mapSymbols_identity
  | not f ih => exact congrArg not ih
  | binary op l r left right => exact congrArg₂ (binary op) left right
  | quantified q x f ih => exact congrArg (quantified q x) ih

/-- The symbols of a formula replaced twice are replaced by the second image of the first. -/
theorem mapSymbols_mapSymbols (f : Formula) :
    (f.mapSymbols image).mapSymbols other = f.mapSymbols (image.andThen other) := by
  -- Each part is mapped twice.
  induction f with
  | atom a => exact congrArg atom a.mapSymbols_mapSymbols
  | not f ih => exact congrArg not ih
  | binary op l r left right => exact congrArg₂ (binary op) left right
  | quantified q x f ih => exact congrArg (quantified q _) ih

/-- Maps that agree on the symbols of a formula make the same of it. -/
theorem mapSymbols_congr (belongs : f.Over range)
    (agree : ∀ kind, ∀ s ∈ range kind, image kind s = other kind s) :
    f.mapSymbols image = f.mapSymbols other := by
  -- On each part the maps agree.
  induction f with
  | atom a => exact congrArg atom (Atom.mapSymbols_congr belongs agree)
  | not f ih => exact congrArg not (ih belongs)
  | binary op l r left right => exact congrArg₂ (binary op) (left belongs.1) (right belongs.2)
  | quantified q x f ih => exact congrArg₂ (quantified q) (agree _ _ belongs.1) (ih belongs.2)

/-- The symbols of a formula are replaced by those of the range of the map. -/
theorem Over.mapSymbols {target : SymbolSet} (belongs : f.Over range)
    (maps : ∀ kind, ∀ s ∈ range kind, image kind s ∈ target kind) :
    (f.mapSymbols image).Over target := by
  -- The symbols of each part belong to the target.
  induction f with
  | atom a => exact Atom.Over.mapSymbols belongs maps
  | not f ih => exact ih belongs
  | binary op l r left right => exact ⟨left belongs.1, right belongs.2⟩
  | quantified q x f ih => exact ⟨maps _ _ belongs.1, ih belongs.2⟩

/-- A formula that a map leaves as it is has symbols only that the map leaves as they are. -/
theorem over_of_mapSymbols_eq (same : f.mapSymbols image = f)
    (fixed : ∀ kind s, image kind s = s → s ∈ range kind) : f.Over range := by
  induction f with
  | atom a => exact Atom.over_of_mapSymbols_eq (atom.inj same) fixed
  | not f ih => exact ih (not.inj same)
  | binary op l r left right =>
    obtain ⟨_, first, second⟩ := binary.inj same
    exact ⟨left first, right second⟩
  -- A quantifier is left as it is only if its variable is.
  | quantified q x f ih =>
    obtain ⟨_, bound, scope⟩ := quantified.inj same
    exact ⟨fixed _ _ bound, ih scope⟩

/-- A formula is known to a table when its symbols are among those given out. -/
theorem known_iff_over {table : SymbolTable} : f.Known table ↔ f.Over table.known := by
  -- Both say the same of every atom and of every variable that is bound.
  induction f with
  | atom a => exact Atom.known_iff_over
  | not f ih => exact ih
  | binary op l r left right => exact and_congr left right
  | quantified q x f ih => exact and_congr Iff.rfl ih

/-- The quantifiers stay where they are, and bind what their variables are replaced by. -/
theorem binders_mapSymbols (f : Formula) :
    (f.mapSymbols image).binders = f.binders.map fun b => (b.1, image .var b.2) := by
  -- Quantifiers are listed in the order of the parts that they stand in.
  induction f with
  | atom a => rfl
  | not f ih => exact ih
  | binary op l r left right => simp only [mapSymbols, binders, left, right, List.map_append]
  | quantified q x f ih => simp only [mapSymbols, binders, ih, List.map_cons]

end Laws

section Rewriting

variable (image : SymbolMap)

/-- Symbols may be replaced before or after implications are written out. -/
theorem mapSymbols_eliminateImplications (f : Formula) :
    f.eliminateImplications.mapSymbols image = (f.mapSymbols image).eliminateImplications := by
  induction f with
  | atom a => rfl
  | not f ih => exact congrArg not ih
  -- Every connective is written out by means of its sides alone.
  | binary op l r left right =>
    cases op <;> simp only [eliminateImplications, mapSymbols, left, right]
  | quantified q x f ih => exact congrArg (quantified q _) ih

/-- Symbols may be replaced before or after negations are moved inwards. -/
theorem mapSymbols_signed (f : Formula) (positive : Bool) :
    (f.signed positive).mapSymbols image = (f.mapSymbols image).signed positive := by
  -- A denial passes from one reading of the formula to the other, so both are treated at once.
  induction f generalizing positive with
  | atom a => cases positive <;> rfl
  | not f ih => exact ih (!positive)
  | binary op l r left right =>
    cases op <;> cases positive <;>
      simp only [signed, mapSymbols, left, right, if_true, if_false, Bool.false_eq_true]
  | quantified q x f ih => simp only [signed, mapSymbols, ih]

/-- Symbols may be replaced before or after quantifiers are left out. -/
theorem mapSymbols_dropBinders (dropped : Quantifier → Bool) (f : Formula) :
    (f.dropBinders dropped).mapSymbols image = (f.mapSymbols image).dropBinders dropped := by
  induction f with
  | atom a => rfl
  | not f ih => exact congrArg not ih
  | binary op l r left right => exact congrArg₂ (binary op) left right
  | quantified q x f ih =>
    -- Whether a quantifier is left out does not depend on the variable that it binds.
    simp only [dropBinders, mapSymbols]
    split
    · exact ih
    · exact congrArg (quantified q _) ih

/-- Quantifiers put in front of a formula bind what their variables are replaced by. -/
theorem mapSymbols_quantify (bs : List (Quantifier × Variable)) (f : Formula) :
    (quantify bs f).mapSymbols image =
      quantify (bs.map fun b => (b.1, image .var b.2)) (f.mapSymbols image) := by
  induction bs with
  | nil => rfl
  | cons b bs ih => exact congrArg (quantified b.1 _) ih

/-- Quantifiers are arranged without regard to what they bind. -/
theorem arrange_map (order : PrenexOrder) (names : Variable → Variable)
    (bs : List (Quantifier × Variable)) :
    order.arrange (bs.map fun b => (b.1, names b.2)) =
      (order.arrange bs).map fun b => (b.1, names b.2) := by
  cases order with
  | preserve => rfl
  -- The filters look at the quantifiers only, which the variables go along with.
  | existentialsFirst =>
    simp only [PrenexOrder.arrange, List.filter_map, List.map_append, Function.comp_def]

/-- Symbols may be replaced before or after quantifiers are moved to the front. -/
theorem mapSymbols_toPrenex (order : PrenexOrder) (f : Formula) :
    (f.toPrenex order).mapSymbols image = (f.mapSymbols image).toPrenex order := by
  -- The quantifiers in front are those of the formula, each with its variable replaced.
  rw [toPrenex, mapSymbols_quantify, mapSymbols_dropBinders, toPrenex, binders_mapSymbols,
    arrange_map]

/-- The matrix of a formula has its symbols replaced along with the formula. -/
theorem mapSymbols_matrix (f : Formula) :
    f.matrix.mapSymbols image = (f.mapSymbols image).matrix := by
  induction f with
  | quantified q x f ih => exact ih
  | _ => rfl

/-- Symbols may be replaced before or after a formula is put into each conjunct of another one. -/
theorem mapSymbols_disjoinEach (l r : Formula) :
    (l.disjoinEach r).mapSymbols image =
      (l.mapSymbols image).disjoinEach (r.mapSymbols image) := by
  fun_induction disjoinEach l r with
  | case1 a b left right => exact congrArg₂ Formula.and left right
  | case2 r single =>
    -- What replaces a formula that is no conjunction is none either.
    cases r with
    | binary op a b =>
      cases op with
      | and => exact (single a b rfl).elim
      | _ => rfl
    | _ => rfl

/-- Symbols may be replaced before or after a disjunction is distributed. -/
theorem mapSymbols_distribute (l r : Formula) :
    (l.distribute r).mapSymbols image = (l.mapSymbols image).distribute (r.mapSymbols image) := by
  fun_induction distribute l r with
  | case1 a b r left right => exact congrArg₂ Formula.and left right
  | case2 l r single =>
    rw [mapSymbols_disjoinEach]
    -- What replaces a formula that is no conjunction is none either.
    cases l with
    | binary op a b =>
      cases op with
      | and => exact (single a b rfl).elim
      | _ => rfl
    | _ => rfl

/-- Symbols may be replaced before or after a formula is brought into conjunctive form. -/
theorem mapSymbols_toConjunctive (f : Formula) :
    f.toConjunctive.mapSymbols image = (f.mapSymbols image).toConjunctive := by
  induction f with
  | binary op l r left right =>
    -- Only the sides of conjunctions and disjunctions are treated further.
    cases op with
    | and => exact congrArg₂ Formula.and left right
    | or => simp only [toConjunctive, mapSymbols, mapSymbols_distribute, left, right]
    | _ => rfl
  | _ => rfl

/-- The conjuncts of a formula have their symbols replaced along with the formula. -/
theorem conjuncts_mapSymbols (f : Formula) :
    (f.mapSymbols image).conjuncts = f.conjuncts.map (mapSymbols image) := by
  induction f with
  | binary op l r left right =>
    -- Only a conjunction falls apart, and it does so on either side.
    cases op with
    | and => simp only [mapSymbols, conjuncts, left, right, List.map_append]
    | _ => rfl
  | _ => rfl

open Classical in
/-- A map that changes exactly the symbols outside a set. -/
noncomputable def changingOutside (range : SymbolSet) : SymbolMap :=
  fun kind s => if s ∈ range kind then s else ⟨s.id + 1⟩

/-- Only the symbols of the set stay as they are. -/
theorem changingOutside_eq_self_iff {range : SymbolSet} {kind : Kind} {s : Symbol kind} :
    changingOutside range kind s = s ↔ s ∈ range kind := by
  rw [changingOutside]
  split
  · rename_i inside
    exact ⟨fun _ => inside, fun _ => rfl⟩
  -- A symbol outside the set gets the next number, which is another one.
  · rename_i outside
    exact ⟨fun same => absurd (congrArg Symbol.id same) (Nat.succ_ne_self _),
      fun inside => absurd inside outside⟩

/-- The symbols of a formula belong to a set just if changing all others leaves it as it is. -/
theorem over_iff_mapSymbols_eq {range : SymbolSet} {f : Formula} :
    f.Over range ↔ f.mapSymbols (changingOutside range) = f := by
  constructor
  · -- On the symbols of the set the map does nothing.
    intro belongs
    exact (mapSymbols_congr belongs fun kind s inside =>
      changingOutside_eq_self_iff.mpr inside).trans f.mapSymbols_identity
  · -- What is left as it is has no symbol that the map changes.
    intro same
    exact over_of_mapSymbols_eq same fun kind s => changingOutside_eq_self_iff.mp

/-- A rewriting before or after which symbols can be replaced brings in no symbols. -/
theorem Over.of_commutes {range : SymbolSet} {f : Formula} {rewrite : Formula → Formula}
    (commutes : ∀ (image : SymbolMap) (f : Formula),
      (rewrite f).mapSymbols image = rewrite (f.mapSymbols image))
    (belongs : f.Over range) : (rewrite f).Over range := by
  -- Replacing symbols that do not occur in the formula would show that one had been brought in.
  rw [over_iff_mapSymbols_eq] at belongs ⊢
  rw [commutes, belongs]

/-- Symbols that belong to two sets each belong to what both have in common. -/
theorem Over.inter {range other : SymbolSet} {f : Formula} (one : f.Over range)
    (two : f.Over other) : f.Over fun kind => range kind ∩ other kind := by
  rw [over_iff_mapSymbols_eq] at one ⊢
  -- Among the symbols of the second set, the same ones are changed as for the first set.
  refine (mapSymbols_congr two fun kind s inside => ?_).trans one
  by_cases here : s ∈ range kind
  · exact (if_pos ⟨here, inside⟩).trans (if_pos here).symm
  · exact (if_neg fun both => here both.1).trans (if_neg here).symm

/-- A formula over a set is over every larger set. -/
theorem Over.mono {range other : SymbolSet} {f : Formula} (belongs : f.Over range)
    (wider : ∀ kind, range kind ⊆ other kind) : f.Over other := by
  rw [← f.mapSymbols_identity]
  exact belongs.mapSymbols wider

end Rewriting

end Formula

/-- Replaces every symbol of a literal. -/
def Literal.mapSymbols (image : SymbolMap) (l : Literal) : Literal :=
  { l with atom := l.atom.mapSymbols image }

namespace Clause

/-- Replaces every symbol of a clause. -/
def mapSymbols (image : SymbolMap) (c : Clause) : Clause where
  literals := c.literals.map (Literal.mapSymbols image)

/-- Clauses all of whose symbols belong to a set. -/
def Over (range : SymbolSet) (c : Clause) : Prop := ∀ l ∈ c.literals, l.atom.Over range

section Laws

variable {image other : SymbolMap} {range : SymbolSet} {c : Clause}

/-- A clause is unchanged when every symbol stays as it is. -/
@[simp] theorem mapSymbols_identity (c : Clause) : c.mapSymbols .identity = c :=
  congrArg mk ((List.map_congr_left fun l _ =>
    congrArg (Literal.mk _) l.atom.mapSymbols_identity).trans c.literals.map_id)

/-- The symbols of a clause replaced twice are replaced by the second image of the first. -/
theorem mapSymbols_mapSymbols (c : Clause) :
    (c.mapSymbols image).mapSymbols other = c.mapSymbols (image.andThen other) := by
  simp only [mapSymbols, List.map_map, mk.injEq]
  exact List.map_congr_left fun l _ => congrArg (Literal.mk _) l.atom.mapSymbols_mapSymbols

/-- Maps that agree on the symbols of a clause make the same of it. -/
theorem mapSymbols_congr (belongs : c.Over range)
    (agree : ∀ kind, ∀ s ∈ range kind, image kind s = other kind s) :
    c.mapSymbols image = c.mapSymbols other :=
  congrArg mk (List.map_congr_left fun l listed =>
    congrArg (Literal.mk _) (Atom.mapSymbols_congr (belongs l listed) agree))

/-- A clause that a map leaves as it is has symbols only that the map leaves as they are. -/
theorem over_of_mapSymbols_eq (same : c.mapSymbols image = c)
    (fixed : ∀ kind s, image kind s = s → s ∈ range kind) : c.Over range := by
  -- The literals are mapped one by one, so each of them is left as it is.
  intro l listed
  have kept := (mk.inj same).trans c.literals.map_id.symm
  have literal : l.mapSymbols image = l := List.map_inj_left.mp kept l listed
  exact Atom.over_of_mapSymbols_eq (congrArg Literal.atom literal) fixed

/-- A clause is known to a table when its symbols are among those given out. -/
theorem known_iff_over {table : SymbolTable} : c.Known table ↔ c.Over table.known :=
  forall₂_congr fun _ _ => Atom.known_iff_over

end Laws

end Clause

namespace Formula

section Extraction

variable {image : SymbolMap} {f : Formula} {fs : List Formula} {ls : List Literal}

/-- A formula with its symbols replaced is joined of literals with their symbols replaced. -/
theorem JoinedOf.mapSymbols (joined : JoinedOf f ls) :
    JoinedOf (f.mapSymbols image) (ls.map (Literal.mapSymbols image)) := by
  induction joined with
  | atom a => exact .atom _
  | not a => exact .not _
  -- The literals of both sides are mapped apart.
  | or _ _ left right =>
    rw [List.map_append]
    exact .or left right

/-- Formulas with their symbols replaced have clauses with their symbols replaced. -/
theorem extractClauses_mapSymbols {cs : List Clause} (done : extractClauses fs = .ok cs) :
    extractClauses (fs.map (mapSymbols image)) = .ok (cs.map (Clause.mapSymbols image)) := by
  -- Conjuncts may be found before symbols are replaced or afterwards.
  have parts : (fs.map (mapSymbols image)).flatMap conjuncts =
      (fs.flatMap conjuncts).map (mapSymbols image) := by
    rw [List.flatMap_map, List.map_flatMap]
    exact List.flatMap_congr fun f _ => conjuncts_mapSymbols image f
  -- Each conjunct is joined of the literals of one clause.
  refine extractClauses_of_forall₂ ?_
  rw [parts, List.forall₂_map_left_iff, List.forall₂_map_right_iff]
  exact (forall₂_extractClauses done).imp fun f c joined => joined.mapSymbols

/-- The clauses of formulas over a set are over that set. -/
theorem over_extractClauses {range : SymbolSet} {cs : List Clause}
    (belongs : ∀ f ∈ fs, f.Over range) (done : extractClauses fs = .ok cs) :
    ∀ c ∈ cs, c.Over range := by
  -- Changing all other symbols leaves the formulas, and so the clauses, as they are.
  have same : fs.map (mapSymbols (changingOutside range)) = fs :=
    (List.map_congr_left fun f listed => over_iff_mapSymbols_eq.mp (belongs f listed)).trans
      fs.map_id
  have kept : cs.map (Clause.mapSymbols (changingOutside range)) = cs := by
    have again : extractClauses (fs.map (mapSymbols (changingOutside range))) = .ok _ :=
      extractClauses_mapSymbols done
    rw [same, done] at again
    exact (Except.ok.inj again).symm
  intro c listed
  refine Clause.over_of_mapSymbols_eq (List.map_inj_left.mp (kept.trans cs.map_id.symm) c listed)
    fun kind s => changingOutside_eq_self_iff.mp

end Extraction

end Formula

end ClauseForm
