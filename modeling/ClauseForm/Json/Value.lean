import ClauseForm.Json.Number

/-! JSON documents as trees, and their compact and indented texts. -/

namespace ClauseForm

/--
A JSON value as it is found in a text. A string literal or a name whose escapes spell no text has
`none` in its place, and `broken` stands where the text stops being JSON.
-/
inductive Json where
  | null
  | bool (b : Bool)
  | number (n : Json.Number)
  | string (text : Option String)
  | array (items : List Json)
  | object (members : List (Option String × Json))
  | broken

namespace Json

/-- A string value. -/
def text (s : String) : Json := .string (some s)

/-- A natural number. -/
def nat (n : Nat) : Json := .number (.ofNat n)

/-- An object with a member for each name. -/
def fields (members : List (String × Json)) : Json :=
  .object (members.map fun (name, value) => (some name, value))

/-- Lowercase digit of a number below sixteen. -/
def hexDigit (n : Nat) : Char := Nat.digitChar n

/-- A character as it is written inside a string literal. -/
def escape (c : Char) : List Char :=
  if c = '"' then ['\\', '"']
  else if c = '\\' then ['\\', '\\']
  else if c.toNat ≥ 32 then [c]
  else if c.toNat = 8 then ['\\', 'b']
  else if c.toNat = 9 then ['\\', 't']
  else if c.toNat = 10 then ['\\', 'n']
  else if c.toNat = 12 then ['\\', 'f']
  else if c.toNat = 13 then ['\\', 'r']
  else ['\\', 'u', '0', '0', hexDigit (c.toNat / 16), hexDigit (c.toNat % 16)]

/-- The literal of a string in front of a text. -/
def writeText (s : Option String) (rest : List Char) : List Char :=
  '"' :: ((s.getD "").toList.flatMap escape ++ '"' :: rest)

mutual

/-- The compact text of a value in front of a text. -/
def write : Json → List Char → List Char
  | .null, rest => 'n' :: 'u' :: 'l' :: 'l' :: rest
  | .bool true, rest => 't' :: 'r' :: 'u' :: 'e' :: rest
  | .bool false, rest => 'f' :: 'a' :: 'l' :: 's' :: 'e' :: rest
  | .number n, rest => n.text ++ rest
  | .string s, rest => writeText s rest
  | .array [], rest => '[' :: ']' :: rest
  | .array (item :: items), rest => '[' :: item.write (writeItems items rest)
  | .object [], rest => '{' :: '}' :: rest
  | .object ((name, value) :: members), rest =>
    '{' :: writeText name (':' :: value.write (writeMembers members rest))
  | .broken, rest => rest

/-- The further items of an array and its end in front of a text. -/
def writeItems : List Json → List Char → List Char
  | [], rest => ']' :: rest
  | item :: items, rest => ',' :: item.write (writeItems items rest)

/-- The further members of an object and its end in front of a text. -/
def writeMembers : List (Option String × Json) → List Char → List Char
  | [], rest => '}' :: rest
  | (name, value) :: members, rest =>
    ',' :: writeText name (':' :: value.write (writeMembers members rest))

end

/-- The compact text of a value. -/
def compact (j : Json) : String := String.ofList (j.write [])

/-- A line break and the indentation of a level in front of a text. -/
def newLine (level : Nat) (rest : List Char) : List Char :=
  '\n' :: (List.replicate (2 * level) ' ' ++ rest)

mutual

/-- The indented text of a value at a level in front of a text. -/
def writeIndented (level : Nat) : Json → List Char → List Char
  | .array (item :: items), rest =>
    '[' :: newLine (level + 1)
      (item.writeIndented (level + 1) (writeIndentedItems level items rest))
  | .object ((name, value) :: members), rest =>
    '{' :: newLine (level + 1) (writeText name
      (':' :: ' ' :: value.writeIndented (level + 1) (writeIndentedMembers level members rest)))
  | .null, rest => write .null rest
  | .bool b, rest => write (.bool b) rest
  | .number n, rest => write (.number n) rest
  | .string s, rest => write (.string s) rest
  | .array [], rest => write (.array []) rest
  | .object [], rest => write (.object []) rest
  | .broken, rest => rest

/-- The further items of an array at a level and its end in front of a text. -/
def writeIndentedItems (level : Nat) : List Json → List Char → List Char
  | [], rest => newLine level (']' :: rest)
  | item :: items, rest =>
    ',' :: newLine (level + 1)
      (item.writeIndented (level + 1) (writeIndentedItems level items rest))

/-- The further members of an object at a level and its end in front of a text. -/
def writeIndentedMembers (level : Nat) : List (Option String × Json) → List Char → List Char
  | [], rest => newLine level ('}' :: rest)
  | (name, value) :: members, rest =>
    ',' :: newLine (level + 1) (writeText name
      (':' :: ' ' :: value.writeIndented (level + 1) (writeIndentedMembers level members rest)))

end

/-- The text of a value on several lines, indented by two blanks for each level. -/
def indented (j : Json) : String := String.ofList (j.writeIndented 0 [])

end Json

end ClauseForm
