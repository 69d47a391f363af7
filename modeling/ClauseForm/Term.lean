import ClauseForm.Symbol

/-! Terms are variables, constants, and function symbols applied to lists of terms. -/

namespace ClauseForm

/-- A term of first-order logic. -/
inductive Term where
  | var (x : Variable)
  | const (c : Constant)
  | app (f : FunctionSymbol) (args : List Term)

namespace Term

mutual

/-- Whether two terms are the same, decided from the outside in. -/
def decEq : (s t : Term) → Decidable (s = t)
  | .var x, .var y => decidable_of_iff (x = y) (by simp)
  | .const c, .const d => decidable_of_iff (c = d) (by simp)
  | .app f ss, .app g ts =>
    have := decEqAll ss ts
    decidable_of_iff (f = g ∧ ss = ts) (by simp)
  | .var _, .const _ | .var _, .app .. | .const _, .var _ => isFalse nofun
  | .const _, .app .. | .app .., .var _ | .app .., .const _ => isFalse nofun

/-- Whether two lists of terms are the same, decided from left to right. -/
def decEqAll : (ss ts : List Term) → Decidable (ss = ts)
  | [], [] => isTrue rfl
  | [], _ :: _ | _ :: _, [] => isFalse nofun
  | s :: ss, t :: ts =>
    have := decEq s t
    have := decEqAll ss ts
    decidable_of_iff (s = t ∧ ss = ts) (by simp)

end

instance : DecidableEq Term := decEq

mutual

/-- Replaces variables, constants and applications by the values and the function given. -/
def fold {α : Type} (var : Variable → α) (const : Constant → α)
    (app : FunctionSymbol → List α → α) : Term → α
  | .var x => var x
  | .const c => const c
  | .app f args => app f (foldAll var const app args)

/-- The fold of every term of a list. -/
def foldAll {α : Type} (var : Variable → α) (const : Constant → α)
    (app : FunctionSymbol → List α → α) : List Term → List α
  | [] => []
  | t :: ts => t.fold var const app :: foldAll var const app ts

end

/-- Folding a list of terms folds each of them. -/
theorem foldAll_eq_map {α : Type} (var : Variable → α) (const : Constant → α)
    (app : FunctionSymbol → List α → α) (ts : List Term) :
    foldAll var const app ts = ts.map (fold var const app) := by
  -- The two recursions over the list are the same.
  induction ts with
  | nil => rfl
  | cons t ts ih => simp [foldAll, ih]

/-- A property of terms holds if it passes from the arguments of an application to the whole. -/
@[elab_as_elim, induction_eliminator]
theorem induct {motive : Term → Prop} (var : ∀ x, motive (.var x)) (const : ∀ c, motive (.const c))
    (app : ∀ f args, (∀ t ∈ args, motive t) → motive (.app f args)) (t : Term) : motive t :=
  -- Every argument is smaller than the application.
  match t with
  | .var x => var x
  | .const c => const c
  | .app f args => app f args fun t _ => induct var const app t

/-- Variables in the order in which they occur, repeats kept. -/
def vars : Term → List Variable :=
  fold (fun x => [x]) (fun _ => []) fun _ parts => parts.flatten

/-- Puts a term in place of every variable. -/
def bind (values : Variable → Term) : Term → Term :=
  fold values .const .app

/-- Puts a term in place of one variable. -/
def substitute (t : Term) (x : Variable) (value : Term) : Term :=
  t.bind (assign .var x value)

/-- How many function symbols lie above each other at most. -/
def depth : Term → Nat :=
  fold (fun _ => 0) (fun _ => 0) fun _ depths => 1 + depths.foldl max 0

/-- A variable occurs in itself. -/
@[simp] theorem vars_var (x : Variable) : (var x).vars = [x] := rfl

/-- No variable occurs in a constant. -/
@[simp] theorem vars_const (c : Constant) : (const c).vars = [] := rfl

/-- The variables of an application are those of its arguments one after the other. -/
@[simp] theorem vars_app (f : FunctionSymbol) (args : List Term) :
    (app f args).vars = args.flatMap vars := by
  -- The fold lists the arguments as a map does.
  simp [vars, fold, foldAll_eq_map, List.flatMap]

/-- A variable is replaced by its term. -/
@[simp] theorem bind_var (values : Variable → Term) (x : Variable) :
    (var x).bind values = values x := rfl

/-- Nothing is put in place of a constant. -/
@[simp] theorem bind_const (values : Variable → Term) (c : Constant) :
    (const c).bind values = const c := rfl

/-- Terms are put in place of the variables of each argument. -/
@[simp] theorem bind_app (values : Variable → Term) (f : FunctionSymbol) (args : List Term) :
    (app f args).bind values = app f (args.map (bind values)) := by
  -- The fold replaces in the arguments as a map does.
  simp [bind, fold, foldAll_eq_map]

/-- A variable has no depth. -/
@[simp] theorem depth_var (x : Variable) : (var x).depth = 0 := rfl

/-- A constant has no depth. -/
@[simp] theorem depth_const (c : Constant) : (const c).depth = 0 := rfl

/-- An application is one deeper than its deepest argument. -/
@[simp] theorem depth_app (f : FunctionSymbol) (args : List Term) :
    (app f args).depth = 1 + (args.map depth).foldl max 0 := by
  -- The fold measures the arguments as a map does.
  simp [depth, fold, foldAll_eq_map]

end Term

end ClauseForm
