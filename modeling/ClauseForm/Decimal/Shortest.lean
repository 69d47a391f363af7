/-! The fewest decimal digits that tell a floating-point number from its neighbours. -/

namespace ClauseForm.Decimal

/-- Whether one fraction, given as numerator and denominator, is below another. -/
def isBelow (a b : Nat × Nat) : Bool := a.1 * b.2 < b.1 * a.2

/-- Distance of two fractions. -/
def distance (a b : Nat × Nat) : Nat × Nat :=
  (a.1 * b.2 - b.1 * a.2 + (b.1 * a.2 - a.1 * b.2), a.2 * b.2)

/-- The fraction `n * base ^ e`. -/
def scaled (base n : Nat) (e : Int) : Nat × Nat :=
  if e < 0 then (n, base.pow e.natAbs) else (n * base.pow e.natAbs, 1)

/-- A positive number `mantissa * 2 ^ exponent`, where the mantissa has at most 53 bits. -/
structure Binary where
  mantissa : Nat
  exponent : Int

namespace Binary

/-- The number that a positive floating-point value stands for. -/
def ofFloat (x : Float) : Binary :=
  let bits := x.toBits.toNat
  let biased : Nat := bits / Nat.pow 2 52 % Nat.pow 2 11
  let fraction : Nat := bits % Nat.pow 2 52
  if biased = 0 then { mantissa := fraction, exponent := -1074 }
  else { mantissa := Nat.pow 2 52 + fraction, exponent := (biased : Int) - 1075 }

/-- The number as a fraction. -/
def fraction (x : Binary) : Nat × Nat := scaled 2 x.mantissa x.exponent

/-- Whether a fraction is read as this number, which it is up to half way to its neighbours. -/
def reads (x : Binary) (value : Nat × Nat) : Bool :=
  -- The neighbour below a power of two is half as far away as the one above.
  let low :=
    if x.mantissa = Nat.pow 2 52 then scaled 2 (4 * x.mantissa - 1) (x.exponent - 2)
    else scaled 2 (2 * x.mantissa - 1) (x.exponent - 1)
  let high := scaled 2 (2 * x.mantissa + 1) (x.exponent - 1)
  if x.mantissa % 2 = 0 then !isBelow value low && !isBelow high value
  else isBelow low value && isBelow value high

/-- The power of ten that the number reaches, where the next one lies above it. -/
def magnitude (x : Binary) : Int :=
  let (n, d) := x.fraction
  if n ≥ d then (Nat.toDigits 10 (n / d)).length - 1
  else -((Nat.toDigits 10 ((n + d - 1) / n - 1)).length : Int)

/-- The nearest multiple of a power of ten that is read as this number. -/
def multiple? (x : Binary) (power : Int) : Option Nat :=
  let (n, d) := x.fraction
  let scale := Nat.pow 10 power.natAbs
  let below := if power < 0 then n * scale / d else n / (d * scale)
  let gap := fun k => distance x.fraction (scaled 10 k power)
  match [below, below + 1].filter fun k => x.reads (scaled 10 k power) with
  | [a, b] =>
    if isBelow (gap a) (gap b) then some a
    else if isBelow (gap b) (gap a) then some b
    else some (if a % 2 = 0 then a else b)
  | hits => hits.head?

/-- Looks for a multiple that is read as this number, with more and more digits. -/
def search (x : Binary) : (more digits : Nat) → Nat × Int
  | 0, _ => (x.mantissa, 0)
  | more + 1, digits =>
    let power := x.magnitude + 1 - digits
    match x.multiple? power with
    | some k => (k, power)
    | none => x.search more (digits + 1)

/-- The fewest digits that are read as this number, and the power of ten of the last one. -/
def shortest (x : Binary) : List Char × Int :=
  -- Seventeen digits tell all numbers with 53 bits apart.
  let (k, power) := x.search 17 1
  let digits := Nat.toDigits 10 k
  let kept := (digits.reverse.dropWhile (· = '0')).reverse
  (kept, power + (digits.length - kept.length : Nat))

end Binary

end ClauseForm.Decimal
