import ClauseForm.Error
import ClauseForm.Json.Reader

/-!
Decoders turn JSON values into values of the domain and answer the first error in document order.
-/

namespace ClauseForm.Json

/-- A decoder makes a value of the domain, or tells why there is none. -/
abbrev Decoder (α : Type) := Json → Except ReadError α

/-- How many levels of arrays and objects may lie above each other in a decoded document. -/
def maxDepth : Nat := 127

mutual

/-- Whether no part of a value is broken, which is all that is asked of a value left unread. -/
def isSound : Json → Bool
  | .broken => false
  | .array items => areSound items
  | .object members => areMembersSound members
  | _ => true

/-- Whether no part of any item is broken. -/
def areSound : List Json → Bool
  | [] => true
  | item :: items => item.isSound && areSound items

/-- Whether no part of any member is broken. -/
def areMembersSound : List (Option String × Json) → Bool
  | [] => true
  | (_, value) :: members => value.isSound && areMembersSound members

end

mutual

/--
Whether a value can be kept for later use: all its strings and names spell texts, its numbers are
not too large, and it has room for its levels.
-/
def isStorable : Nat → Json → Bool
  | _, .null | _, .bool _ => true
  | _, .number n => !n.isTooLarge
  | _, .string s => s.isSome
  | 0, .array _ | 0, .object _ => false
  | room + 1, .array items => areStorable room items
  | room + 1, .object members => areMembersStorable room members
  | _, .broken => false

/-- Whether all items can be kept. -/
def areStorable (room : Nat) : List Json → Bool
  | [] => true
  | item :: items => item.isStorable room && areStorable room items

/-- Whether all members can be kept. -/
def areMembersStorable (room : Nat) : List (Option String × Json) → Bool
  | [] => true
  | (name, value) :: members =>
    name.isSome && value.isStorable room && areMembersStorable room members

end

/-- Passes over a value that is not read. -/
def skip (j : Json) : Except ReadError Unit := if j.isSound then .ok () else .error .malformed

/-- Passes over a value that was found fit to be kept before. -/
def skipStored (_ : Json) : Except ReadError Unit := .ok ()

/-- Decodes a truth value. -/
def decodeBool : Decoder Bool
  | .bool b => .ok b
  | _ => .error .malformed

/-- Decodes a string. -/
def decodeText : Decoder String
  | .string (some s) => .ok s
  | _ => .error .malformed

/-- Decodes a natural number below a bound. -/
def decodeBelow (bound : Nat) : Decoder Nat
  | .number n =>
    match n.natural? with
    | some value => if value < bound then .ok value else .error .malformed
    | none => .error .malformed
  | _ => .error .malformed

/-- Decodes null as the absence of a value. -/
def decodeOption {α : Type} (decode : Decoder α) : Decoder (Option α)
  | .null => .ok none
  | j => (decode j).map some

/-- Decodes an array item by item. -/
def decodeList {α : Type} (decode : Nat → Decoder α) (room : Nat) : Decoder (List α)
  | .array items =>
    match room with
    | 0 => .error .malformed
    | room + 1 => items.mapM (decode room)
  | _ => .error .malformed

/-- A field of a record that is gathered in a draft. -/
structure FieldDecoder (Draft : Type) where
  name : String
  /-- Whether the field may be left out. -/
  optional : Bool := false
  isSet : Draft → Bool
  set : Json → Draft → Except ReadError Draft

/-- A field that is decoded into one place of a draft. -/
def FieldDecoder.of {Draft α : Type} (name : String) (optional : Bool) (get : Draft → Option α)
    (put : α → Draft → Draft) (decode : Decoder α) : FieldDecoder Draft :=
  { name, optional, isSet := fun draft => (get draft).isSome
    set := fun j draft => (decode j).map fun value => put value draft }

/-- Sets the fields of a draft from the members of an object in document order. -/
def decodeMembers {Draft : Type} (fields : List (FieldDecoder Draft)) (skip : Decoder Unit) :
    List (Option String × Json) → Draft → Except ReadError Draft
  | [], draft => .ok draft
  | (none, _) :: _, _ => .error .malformed
  | (some name, value) :: members, draft =>
    match fields.find? (·.name == name) with
    | none => do
      skip value
      decodeMembers fields skip members draft
    | some field =>
      if field.isSet draft then .error (.duplicateField name)
      else do decodeMembers fields skip members (← field.set value draft)

/-- Sets the fields of a draft from the items of an array, one after the other. -/
def decodeItems {Draft : Type} :
    List (FieldDecoder Draft) → List Json → Draft → Except ReadError Draft
  | [], [], draft => .ok draft
  | [], _ :: _, _ => .error .malformed
  | field :: fields, [], draft =>
    if field.optional then decodeItems fields [] draft else .error .malformed
  | field :: fields, item :: items, draft => do
    decodeItems fields items (← field.set item draft)

/-- Refuses a draft in which a field is missing that may not be left out. -/
def requireFields {Draft : Type} (fields : List (FieldDecoder Draft)) (draft : Draft) :
    Except ReadError Draft :=
  match fields.find? fun field => !field.optional && !field.isSet draft with
  | some field => .error (.missingField field.name)
  | none => .ok draft

/-- Decodes a record from an object, or from an array that holds its fields in order. -/
def decodeRecord {Draft : Type} (fields : List (FieldDecoder Draft)) (skip : Decoder Unit)
    (draft : Draft) : Json → Except ReadError Draft
  | .object members => do requireFields fields (← decodeMembers fields skip members draft)
  | .array items => decodeItems fields items draft
  | _ => .error .malformed

/-- The tag among those expected that a string names. -/
def decodeTag (tags : List String) : Decoder String
  | .string (some tag) =>
    if tag ∈ tags then .ok tag else .error (.unknownVariant tag tags)
  | _ => .error .malformed

/-- The tag among those expected that a string names or a number counts from zero. -/
def decodeStoredTag (tags : List String) : Decoder String
  | .number n =>
    match n.natural?.bind (tags[·]?) with
    | some tag => .ok tag
    | none => .error .malformed
  | j => decodeTag tags j

/-- Name of the member that holds the tag of an object. -/
def tagName : String := "type"

/-- The tag of an object and its other members, each of which is checked in its turn. -/
def splitTag (decodeTag : Decoder String) (check : Decoder Unit) :
    List (Option String × Json) → Option String →
      Except ReadError (String × List (Option String × Json))
  | [], none => .error (.missingField tagName)
  | [], some tag => .ok (tag, [])
  | (none, _) :: _, _ => .error .malformed
  | (some name, value) :: members, tag =>
    if name = tagName then
      if tag.isSome then .error (.duplicateField tagName)
      else do splitTag decodeTag check members (some (← decodeTag value))
    else do
      check value
      let (tag, rest) ← splitTag decodeTag check members tag
      return (tag, (some name, value) :: rest)

/-- The tag and the fields of a tagged value, which is an object or an array with its tag first. -/
def decodeTagged (decodeTag : Decoder String) (check : Decoder Unit) : Decoder (String × Json)
  | .object members => do
    let (tag, rest) ← splitTag decodeTag check members none
    return (tag, .object rest)
  | .array [] => .error (.missingField tagName)
  | .array (first :: rest) => do
    let tag ← decodeTag first
    rest.forM check
    return (tag, .array rest)
  | _ => .error .malformed

/-- Passes over a value that is kept for later use. -/
def store (room : Nat) (j : Json) : Except ReadError Unit :=
  if j.isStorable room then .ok () else .error .malformed

/--
Decodes a variant: an object with one member named for it, or its name alone where it holds
nothing.
-/
def decodeVariant {α : Type} (names : List String) (room : Nat)
    (decode : String → Decoder α) (plain : String → Except ReadError α) : Decoder α
  | .object ((name, value) :: members) =>
    if room = 0 then .error .malformed
    else do
      let name ← decodeTag names (.string name)
      let content ← decode name value
      if members.isEmpty then return content else .error .malformed
  | .string s => do plain (← decodeTag names (.string s))
  | _ => .error .malformed

/-- Decodes one of several words, which may also be written as an object that maps it to null. -/
def decodeWord {α : Type} (words : List (String × α)) (room : Nat) : Decoder α :=
  let plain := fun name =>
    match words.lookup name with
    | some value => .ok value
    | none => .error .malformed
  let content := fun name value =>
    match value with
    | .null => plain name
    | _ => .error .malformed
  decodeVariant (words.map Prod.fst) room content plain

/-- Decodes an array of two items. -/
def decodePair {α β : Type} (decodeFirst : Decoder α) (decodeSecond : Decoder β) :
    List Json → Except ReadError (α × β)
  | [] => .error .malformed
  | first :: rest => do
    let a ← decodeFirst first
    match rest with
    | [] => .error .malformed
    | second :: rest => do
      let b ← decodeSecond second
      if rest.isEmpty then return (a, b) else .error .malformed

/-- Decodes an array of three items. -/
def decodeTriple {α β γ : Type} (decodeFirst : Decoder α)
    (decodeSecond : Decoder β) (decodeThird : Decoder γ) :
    List Json → Except ReadError (α × β × γ)
  | [] => .error .malformed
  | first :: rest => do
    let a ← decodeFirst first
    let (b, c) ← decodePair decodeSecond decodeThird rest
    return (a, b, c)

/-- Decodes what lies one level deeper, where there is room for it. -/
def enter {α : Type} (decode : Nat → Decoder α) : Nat → Decoder α
  | 0, _ => .error .malformed
  | room + 1, j => decode room j

/-- Decodes a record of one field. -/
def decodeOne {α : Type} (name : String) (decode : Decoder α) (skip : Decoder Unit) (j : Json) :
    Except ReadError α := do
  let field := FieldDecoder.of name false id (fun a _ => some a) decode
  match ← decodeRecord [field] skip (none : Option α) j with
  | some a => return a
  | none => .error .malformed

/-- Decodes a record of two fields, the second of which may have a value to fall back on. -/
def decodeTwo {α β : Type} (first : String) (decodeFirst : Decoder α)
    (second : String) (decodeSecond : Decoder β) (fallback : Option β)
    (skip : Decoder Unit) (j : Json) : Except ReadError (α × β) := do
  let fields :=
    [FieldDecoder.of first false Prod.fst (fun a draft => (some a, draft.2)) decodeFirst,
      FieldDecoder.of second fallback.isSome Prod.snd (fun b draft => (draft.1, some b))
        decodeSecond]
  match ← decodeRecord fields skip ((none, none) : Option α × Option β) j with
  | (some a, b) =>
    match b.or fallback with
    | some b => return (a, b)
    | none => .error .malformed
  | (none, _) => .error .malformed

/-- Decodes a whole text, which may hold nothing but blanks after the value. -/
def decode {α : Type} (decoder : Nat → Decoder α) (text : String) : Except ReadError α := do
  let document := read text
  let value ← decoder maxDepth document.root
  if document.ended then return value else .error .malformed

end ClauseForm.Json
