import ClauseForm.Error
import ClauseForm.Formula

/-! Disjunctions are distributed over conjunctions, without a limit or within a budget. -/

namespace ClauseForm

namespace Formula

/-- Puts a formula into every conjunct of another one, as the left side of a disjunction. -/
def disjoinEach (l : Formula) : Formula → Formula
  | .and a b => .and (l.disjoinEach a) (l.disjoinEach b)
  | r => .or l r

/--
Disjunction of two conjunctions. The conjuncts of the left one come first, and each of them meets
the conjuncts of the right one in their order.
-/
def distribute : Formula → Formula → Formula
  | .and a b, r => .and (a.distribute r) (b.distribute r)
  | l, r => l.disjoinEach r

/-- Distributes disjunctions over conjunctions from the inside out. -/
def toConjunctive : Formula → Formula
  | .and l r => .and l.toConjunctive r.toConjunctive
  | .or l r => l.toConjunctive.distribute r.toConjunctive
  | f => f

/-- How many formulas the outer conjunctions join. -/
def conjunctCount : Formula → Nat
  | .and l r => l.conjunctCount + r.conjunctCount
  | _ => 1

/-- How many formulas the outer conjunctions of a list join in all. -/
def conjunctTotal (fs : List Formula) : Nat :=
  fs.foldr (fun f total => f.conjunctCount + total) 0

end Formula

/-- The two operands of a connective. -/
inductive Side where
  | left
  | right
  deriving DecidableEq

/-- Limits on one run. -/
structure Budget where
  /-- Nanoseconds after which the run is late. -/
  deadline : Option Nat := none
  /-- How many clauses may arise, where zero sets no limit. -/
  maxClauses : Nat := 0

/-- The ways to exceed a budget while formulas are distributed. -/
inductive Overrun where
  | late
  | tooMany (count : Nat)
  deriving DecidableEq

/-- The error that a run with a limit fails with if distribution exceeds its budget. -/
def Overrun.error (limit : Nat) : Overrun → Error
  | .late => .timeout .distribution
  | .tooMany _ => .clauseLimitExceeded .distribution limit

namespace Budget

/-- Whether the deadline has passed at a place with the time given for it. -/
def isLate {Place : Type} (budget : Budget) (elapsed : Place → Nat) (place : Place) : Bool :=
  match budget.deadline with
  | none => false
  | some deadline => deadline ≤ elapsed place

/-- Whether a number of clauses lies above the limit. -/
def isExceeded (budget : Budget) (count : Nat) : Bool :=
  budget.maxClauses > 0 && count > budget.maxClauses

/-- Refuses to go on after the deadline. -/
def checkTime {Place : Type} (budget : Budget) (elapsed : Place → Nat) (place : Place) :
    Except Overrun Unit :=
  if budget.isLate elapsed place then .error .late else .ok ()

/-- Asks for the time where there is a deadline, and refuses to go on after it. -/
def askTime {m : Type → Type} [Monad m] (budget : Budget) (elapsed : m Nat) :
    ExceptT Overrun m Unit := do
  if budget.deadline.isSome then
    let time ← elapsed
    budget.checkTime (fun _ => time) ()

/-- Refuses a number of clauses above the limit. -/
def checkCount (budget : Budget) (count : Nat) : Except Overrun Unit :=
  if budget.isExceeded count then .error (.tooMany count) else .ok ()

end Budget

/-- The largest count of clauses that is told apart from larger ones. -/
def largestCount : Nat := Nat.pow 2 64 - 1

namespace Formula

/--
Distributes disjunctions over conjunctions within a budget. The time is asked for whenever a node
is entered, and the clauses of a node are counted before they are built.
-/
def toConjunctiveAsking {m : Type → Type} [Monad m] (budget : Budget) :
    Formula → (List Side → m Nat) → ExceptT Overrun m Formula
  | .and l r, elapsed => do
    budget.askTime (elapsed [])
    let l ← l.toConjunctiveAsking budget fun path => elapsed (.left :: path)
    let r ← r.toConjunctiveAsking budget fun path => elapsed (.right :: path)
    budget.checkCount (l.conjunctCount + r.conjunctCount)
    return .and l r
  | .or l r, elapsed => do
    budget.askTime (elapsed [])
    let l ← l.toConjunctiveAsking budget fun path => elapsed (.left :: path)
    let r ← r.toConjunctiveAsking budget fun path => elapsed (.right :: path)
    budget.checkCount (min (l.conjunctCount * r.conjunctCount) largestCount)
    return l.distribute r
  | f, elapsed => do
    budget.askTime (elapsed [])
    return f

/-- Distributes within a budget where the time at each node is given beforehand. -/
def toConjunctiveWithin (budget : Budget) (f : Formula) (elapsed : List Side → Nat) :
    Except Overrun Formula :=
  Id.run (f.toConjunctiveAsking budget fun path => pure (elapsed path)).run

end Formula

end ClauseForm
