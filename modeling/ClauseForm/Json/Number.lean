/-! Number literals of JSON documents. -/

namespace ClauseForm.Json

/-- A number literal by its parts, each a sequence of decimal digits. -/
structure Number where
  negative : Bool := false
  whole : List Char
  fraction : Option (List Char) := none
  /-- Whether the exponent is negative, and its digits. -/
  exponent : Option (Bool × List Char) := none
  deriving DecidableEq

namespace Number

/-- The literal of a natural number. -/
def ofNat (n : Nat) : Number := { whole := Nat.toDigits 10 n }

/-- Value of a literal without sign, fraction and exponent. -/
def natural? (n : Number) : Option Nat :=
  if n.negative || n.fraction.isSome || n.exponent.isSome then none
  else some (Nat.ofDigitChars 10 n.whole 0)

/-- Text of a literal. -/
def text (n : Number) : List Char :=
  (if n.negative then ['-'] else []) ++ n.whole ++
    (match n.fraction with
      | none => []
      | some digits => '.' :: digits) ++
    (match n.exponent with
      | none => []
      | some (negative, digits) => 'e' :: (if negative then '-' :: digits else digits))

/-- Digits at the start of a text, where there is at least one. -/
def scanDigits? (text : List Char) : Option (List Char × List Char) :=
  let digits := text.takeWhile Char.isDigit
  if digits.isEmpty then none else some (digits, text.drop digits.length)

/-- The fraction at the start of a text. A point without digits breaks the literal. -/
def scanFraction? : List Char → Option (Option (List Char) × List Char)
  | '.' :: rest => (scanDigits? rest).map fun (digits, rest) => (some digits, rest)
  | rest => some (none, rest)

/-- The exponent at the start of a text. A mark without digits breaks the literal. -/
def scanExponent? : List Char → Option (Option (Bool × List Char) × List Char)
  | c :: rest =>
    if c = 'e' ∨ c = 'E' then
      let (negative, rest) :=
        match rest with
        | '-' :: rest => (true, rest)
        | '+' :: rest => (false, rest)
        | rest => (false, rest)
      (scanDigits? rest).map fun (digits, rest) => (some (negative, digits), rest)
    else some (none, c :: rest)
  | [] => some (none, [])

/-- The literal at the start of a text. A leading zero stands alone. -/
def scan? (text : List Char) : Option (Number × List Char) := do
  let (negative, text) :=
    match text with
    | '-' :: rest => (true, rest)
    | text => (false, text)
  let (whole, text) ← scanDigits? text
  if whole.head? = some '0' ∧ whole.length ≠ 1 then none
  else
    let (fraction, text) ← scanFraction? text
    let (exponent, text) ← scanExponent? text
    return ({ negative, whole, fraction, exponent }, text)

/-- The natural number with 53 significant bits that is nearest, the even one of two. -/
def roundToBits (n : Nat) : Nat :=
  if n < Nat.pow 2 53 then n
  else
    let unit := Nat.pow 2 (n.log2 - 52)
    let quotient := n / unit
    let twice := 2 * (n % unit)
    if twice > unit ∨ twice = unit ∧ quotient % 2 = 1 then (quotient + 1) * unit
    else quotient * unit

/-- Takes digits into a significand below `2 ^ 64`, and gives back those that found no room. -/
def takeDigits : Nat → List Char → Nat × List Char
  | significand, [] => (significand, [])
  | significand, c :: rest =>
    let next := 10 * significand + (c.toNat - '0'.toNat)
    if next < Nat.pow 2 64 then takeDigits next rest else (significand, c :: rest)

/--
Whether the magnitude lies beyond the numbers with 53 significant bits below `2 ^ 1024`. It is
computed as a significand below `2 ^ 64` times a power of ten, each rounded first.
-/
def isTooLarge (n : Number) : Bool :=
  let (significand, overflowing) := takeDigits 0 n.whole
  let fraction := n.fraction.getD []
  let (significand, unused) := takeDigits significand fraction
  let shift : Int := overflowing.length - (fraction.length - unused.length : Nat)
  let exponent : Int :=
    match n.exponent with
    | none => shift
    | some (negative, digits) =>
      let magnitude : Int := Nat.ofDigitChars 10 digits 0
      if negative then shift - magnitude else shift + magnitude
  if significand = 0 ∨ exponent < 0 then false
  else if exponent > 308 then true
  else
    roundToBits significand * roundToBits (Nat.pow 10 exponent.toNat) ≥
      Nat.pow 2 1024 - Nat.pow 2 970

end Number

end ClauseForm.Json
