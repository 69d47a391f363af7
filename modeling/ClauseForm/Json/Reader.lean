import ClauseForm.Json.Value

/-! Texts are read as JSON values as far as they are JSON. -/

namespace ClauseForm.Json

/-- The blanks that may stand around the parts of a document. -/
def isBlank (c : Char) : Bool := c = ' ' || c = '\t' || c = '\n' || c = '\r'

/-- A text without the blanks at its start. -/
def skipBlanks (text : List Char) : List Char := text.dropWhile isBlank

/-- Value of a hexadecimal digit of either case. -/
def hexValue? (c : Char) : Option Nat :=
  if '0' ≤ c ∧ c ≤ '9' then some (c.toNat - '0'.toNat)
  else if 'a' ≤ c ∧ c ≤ 'f' then some (c.toNat - 'a'.toNat + 10)
  else if 'A' ≤ c ∧ c ≤ 'F' then some (c.toNat - 'A'.toNat + 10)
  else none

/-- Value of four hexadecimal digits. -/
def hexCode? (a b c d : Char) : Option Nat := do
  return (((← hexValue? a) * 16 + (← hexValue? b)) * 16 + (← hexValue? c)) * 16 + (← hexValue? d)

/-- The character of an escape of one letter. -/
def unescape? : Char → Option Char
  | '"' => some '"'
  | '\\' => some '\\'
  | '/' => some '/'
  | 'b' => some '\x08'
  | 'f' => some '\x0c'
  | 'n' => some '\n'
  | 'r' => some '\r'
  | 't' => some '\t'
  | _ => none

/-- Whether a code is the first half of a pair. -/
def isLeading (code : Nat) : Bool := 0xD800 ≤ code && code < 0xDC00

/-- Whether a code is the second half of a pair. -/
def isTrailing (code : Nat) : Bool := 0xDC00 ≤ code && code < 0xE000

/-- The character that two halves of a pair stand for. -/
def paired (leading trailing : Nat) : Char :=
  Char.ofNat (0x10000 + (leading - 0xD800) * 0x400 + (trailing - 0xDC00))

/-- What has been read of a string literal. -/
structure Spelling where
  /-- The characters read, the last one first. -/
  read : List Char := []
  /-- The first half of a pair, when it was read last. -/
  leading : Option Nat := none
  /-- Whether no half of a pair stands alone so far. -/
  whole : Bool := true

namespace Spelling

/-- Reads a character, which leaves a first half before it alone. -/
def addChar (s : Spelling) (c : Char) : Spelling :=
  { read := c :: s.read, whole := s.whole && s.leading.isNone }

/-- Reads a code, which is a character or half of a pair. -/
def addCode (s : Spelling) (code : Nat) : Spelling :=
  match s.leading with
  | some leading =>
    if isTrailing code then { s with read := paired leading code :: s.read, leading := none }
    else if isLeading code then { s with leading := some code, whole := false }
    else s.addChar (Char.ofNat code)
  | none =>
    if isTrailing code then { s with whole := false }
    else if isLeading code then { s with leading := some code }
    else s.addChar (Char.ofNat code)

/-- The text spelled, unless half of a pair stands alone. -/
def text? (s : Spelling) : Option String :=
  if s.whole && s.leading.isNone then some (String.ofList s.read.reverse) else none

end Spelling

/-- The text of a string literal and what follows it, unless the literal is broken. -/
def readText : List Char → Spelling → Option (Option String × List Char)
  | '"' :: rest, s => some (s.text?, rest)
  | '\\' :: 'u' :: a :: b :: c :: d :: rest, s =>
    match hexCode? a b c d with
    | none => none
    | some code => readText rest (s.addCode code)
  | '\\' :: c :: rest, s =>
    match unescape? c with
    | none => none
    | some c => readText rest (s.addChar c)
  | c :: rest, s =>
    if c = '\\' ∨ c.toNat < 32 then none else readText rest (s.addChar c)
  | [], _ => none

mutual

/-- The value at the start of a text, and what follows it unless the text is broken. -/
def readValue : Nat → List Char → Json × Option (List Char)
  | 0, _ => (.broken, none)
  | fuel + 1, text =>
    match skipBlanks text with
    | 'n' :: 'u' :: 'l' :: 'l' :: rest => (.null, some rest)
    | 't' :: 'r' :: 'u' :: 'e' :: rest => (.bool true, some rest)
    | 'f' :: 'a' :: 'l' :: 's' :: 'e' :: rest => (.bool false, some rest)
    | '"' :: rest =>
      match readText rest {} with
      | none => (.broken, none)
      | some (s, rest) => (.string s, some rest)
    | '[' :: rest =>
      match skipBlanks rest with
      | ']' :: rest => (.array [], some rest)
      | rest =>
        let (items, rest) := readItems fuel rest
        (.array items, rest)
    | '{' :: rest =>
      match skipBlanks rest with
      | '}' :: rest => (.object [], some rest)
      | rest =>
        let (members, rest) := readMembers fuel rest
        (.object members, rest)
    | rest =>
      match Number.scan? rest with
      | none => (.broken, none)
      | some (n, rest) => (.number n, some rest)

/-- One item or more up to the end of an array. -/
def readItems : Nat → List Char → List Json × Option (List Char)
  | 0, _ => ([.broken], none)
  | fuel + 1, text =>
    let (item, rest) := readValue fuel text
    match rest.map skipBlanks with
    | none => ([item], none)
    | some (',' :: rest) =>
      let (items, rest) := readItems fuel rest
      (item :: items, rest)
    | some (']' :: rest) => ([item], some rest)
    | some _ => ([item, .broken], none)

/-- One member or more up to the end of an object. -/
def readMembers : Nat → List Char → List (Option String × Json) × Option (List Char)
  | 0, _ => ([(none, .broken)], none)
  | fuel + 1, text =>
    match skipBlanks text with
    | '"' :: rest =>
      match readText rest {} with
      | none => ([(none, .broken)], none)
      | some (name, rest) =>
        match skipBlanks rest with
        | ':' :: rest =>
          let (value, rest) := readValue fuel rest
          match rest.map skipBlanks with
          | none => ([(name, value)], none)
          | some (',' :: rest) =>
            let (members, rest) := readMembers fuel rest
            ((name, value) :: members, rest)
          | some ('}' :: rest) => ([(name, value)], some rest)
          | some _ => ([(name, value), (none, .broken)], none)
        | _ => ([(name, .broken)], none)
    | _ => ([(none, .broken)], none)

end

/-- A value read from a text, and whether only blanks follow it. -/
structure Document where
  root : Json
  ended : Bool

/-- Reads a text. Each step takes a character or goes down one level, so that the fuel suffices. -/
def read (text : String) : Document :=
  let chars := text.toList
  let (root, rest) := readValue (2 * chars.length + 1) chars
  { root
    ended := match rest.map skipBlanks with
      | some [] => true
      | _ => false }

end ClauseForm.Json
