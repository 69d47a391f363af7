import ClauseForm.Json.Decoder
import ClauseForm.Proofs.Attempts
import ClauseForm.Proofs.JsonTexts

/-! Decoders accept what is written for a value, wherever there is room for its levels. -/

namespace ClauseForm.Json

section Nesting

mutual

/-- How many arrays and objects lie above each other at most in a value. -/
def nesting : Json → Nat
  | .array items => nestingOfItems items + 1
  | .object members => nestingOfMembers members + 1
  | _ => 0

/-- How deep the items of an array are nested at most. -/
def nestingOfItems : List Json → Nat
  | [] => 0
  | item :: items => max item.nesting (nestingOfItems items)

/-- How deep the values of an object are nested at most. -/
def nestingOfMembers : List (Option String × Json) → Nat
  | [] => 0
  | (_, value) :: members => max value.nesting (nestingOfMembers members)

end

/-- There is room for an array if there is for its items one level deeper. -/
theorem nesting_array_le_iff {items : List Json} {room : Nat} :
    (Json.array items).nesting ≤ room ↔
      ∃ within, room = within + 1 ∧ ∀ item ∈ items, item.nesting ≤ within := by
  -- The items are nested as deep as the deepest one among them.
  have each (within : Nat) : nestingOfItems items ≤ within ↔
      ∀ item ∈ items, item.nesting ≤ within := by
    induction items with
    | nil => simp [nestingOfItems]
    | cons item items ih => simp only [nestingOfItems, Nat.max_le, List.forall_mem_cons, ih]
  cases room with
  | zero => simp [nesting]
  | succ within => simp [nesting, each]

/-- There is room for an object if there is for its values one level deeper. -/
theorem nesting_fields_le_iff {members : List (String × Json)} {room : Nat} :
    (Json.fields members).nesting ≤ room ↔
      ∃ within, room = within + 1 ∧ ∀ member ∈ members, member.2.nesting ≤ within := by
  -- The names of the members do not count.
  have each (within : Nat) : nestingOfMembers (named members) ≤ within ↔
      ∀ member ∈ members, member.2.nesting ≤ within := by
    induction members with
    | nil => simp [nestingOfMembers]
    | cons member members ih =>
      obtain ⟨name, value⟩ := member
      simp only [named_cons, nestingOfMembers, Nat.max_le, List.forall_mem_cons, ih]
  show nestingOfMembers (named members) + 1 ≤ room ↔ _
  cases room with
  | zero => simp
  | succ within => simp [each]

end Nesting

section Parts

variable {α β γ : Type}

/-- An array is decoded if each of its items is. -/
theorem mapM_decode {decode : Decoder α} {toJson : α → Json} {values : List α}
    (each : ∀ a ∈ values, decode (toJson a) = .ok a) :
    (values.map toJson).mapM decode = .ok values := by
  -- The list and the written one are matched item by item.
  rw [mapM_ok_iff, List.forall₂_map_left_iff]
  exact List.forall₂_same.mpr each

/-- A number below a bound is decoded from what is written for it. -/
theorem decodeBelow_nat {bound n : Nat} (below : n < bound) :
    decodeBelow bound (.nat n) = .ok n := by
  simp [decodeBelow, Json.nat, below]

section Records

variable {Draft : Type} {fields : List (FieldDecoder Draft)} {skip : Decoder Unit}

/-- A field takes what its decoder makes. -/
theorem FieldDecoder.set_of {name : String} {optional : Bool} {get : Draft → Option α}
    {put : α → Draft → Draft} {decode : Decoder α} {j : Json} {a : α} (draft : Draft)
    (decoded : decode j = .ok a) :
    (FieldDecoder.of name optional get put decode).set j draft = .ok (put a draft) := by
  simp [FieldDecoder.of, decoded, Except.map]

/-- Members that fill the fields of a draft in their order, some of which may be left out. -/
inductive Fills : List (FieldDecoder Draft) → List (String × Json) → Draft → Draft → Prop
  | nil (draft : Draft) : Fills [] [] draft draft
  | set {field : FieldDecoder Draft} {fields : List (FieldDecoder Draft)} {value : Json}
      {members : List (String × Json)} {draft next made : Draft}
      (unset : field.isSet draft = false) (decoded : field.set value draft = .ok next)
      (rest : Fills fields members next made) :
    Fills (field :: fields) ((field.name, value) :: members) draft made
  | leave {field : FieldDecoder Draft} {fields : List (FieldDecoder Draft)}
      {members : List (String × Json)} {draft made : Draft}
      (rest : Fills fields members draft made) :
    Fills (field :: fields) members draft made

/-- A field is found by its name if all names are different. -/
theorem find?_name (distinct : (fields.map FieldDecoder.name).Nodup) {field : FieldDecoder Draft}
    (listed : field ∈ fields) : fields.find? (·.name == field.name) = some field := by
  -- The fields are looked through from the front.
  induction fields with
  | nil => cases listed
  | cons other fields ih =>
    rw [List.map_cons, List.nodup_cons] at distinct
    rcases List.mem_cons.mp listed with rfl | inside
    · simp
    · -- The field in front has another name.
      have different : other.name ≠ field.name := fun same =>
        distinct.1 (same ▸ List.mem_map_of_mem inside)
      rw [List.find?_cons_of_neg (by simpa using different), ih distinct.2 inside]

/-- Members that fill the fields are decoded one after the other. -/
theorem Fills.decodeMembers {others : List (FieldDecoder Draft)} {members : List (String × Json)}
    {draft made : Draft} (fills : Fills others members draft made)
    (distinct : (fields.map FieldDecoder.name).Nodup) (listed : ∀ field ∈ others, field ∈ fields) :
    decodeMembers fields skip (named members) draft = .ok made := by
  -- One member after the other is set in the field that has its name.
  induction fills with
  | nil draft => rfl
  | set unset decoded rest ih =>
    have found := find?_name distinct (listed _ List.mem_cons_self)
    simp only [named_cons, Json.decodeMembers, found, unset, Bool.false_eq_true, if_false]
    exact bind_eq_ok.mpr ⟨_, decoded, ih fun field inside => listed field (by simp [inside])⟩
  -- A field that is left out takes no member, and those behind it are still fields of the record.
  | leave rest ih => exact ih fun field inside => listed field (by simp [inside])

/-- A record is decoded from members that fill its fields if none is missing in the end. -/
theorem Fills.decodeRecord {members : List (String × Json)} {draft made : Draft}
    (fills : Fills fields members draft made) (distinct : (fields.map FieldDecoder.name).Nodup)
    (complete : ∀ field ∈ fields, field.optional = true ∨ field.isSet made = true) :
    decodeRecord fields skip draft (Json.fields members) = .ok made := by
  -- What is not optional has been set.
  have present : fields.find? (fun field => !field.optional && !field.isSet made) = none := by
    rw [List.find?_eq_none]
    intro field listed missing
    rcases complete field listed with optional | set
    · simp [optional] at missing
    · simp [set] at missing
  refine bind_eq_ok.mpr ⟨made, fills.decodeMembers distinct fun _ => id, ?_⟩
  rw [requireFields, present]

end Records

section Fields

variable {first second : String} {decodeFirst : Decoder α} {decodeSecond : Decoder β}
  {fallback : Option β} {skip : Decoder Unit} {i j : Json} {a : α} {b : β}

/-- A record of one field is decoded if that field is. -/
theorem decodeOne_fields (one : decodeFirst i = .ok a) :
    decodeOne first decodeFirst skip (Json.fields [(first, i)]) = .ok a := by
  -- The only field is set, and it is not missing.
  refine bind_eq_ok.mpr ⟨some a, Fills.decodeRecord ?_ ?_ ?_, rfl⟩
  · exact .set rfl (FieldDecoder.set_of none one) (.nil _)
  · simp
  · simp [FieldDecoder.of]

/-- A record of two fields is decoded if both of them are. -/
theorem decodeTwo_fields (different : first ≠ second) (one : decodeFirst i = .ok a)
    (two : decodeSecond j = .ok b) :
    decodeTwo first decodeFirst second decodeSecond fallback skip
      (Json.fields [(first, i), (second, j)]) = .ok (a, b) := by
  -- The fields are set one after the other, and the names tell them apart.
  refine bind_eq_ok.mpr ⟨(some a, some b), Fills.decodeRecord ?_ ?_ ?_, rfl⟩
  · exact .set rfl (FieldDecoder.set_of (none, none) one)
      (.set rfl (FieldDecoder.set_of (some a, none) two) (.nil _))
  · simp [FieldDecoder.of, different]
  · simp [FieldDecoder.of]

/-- The second of two fields may be left out if there is a value to fall back on. -/
theorem decodeTwo_fallback (different : first ≠ second) (one : decodeFirst i = .ok a) :
    decodeTwo first decodeFirst second decodeSecond (some b) skip (Json.fields [(first, i)]) =
      .ok (a, b) := by
  -- Only the first field is set, and the second may be missing.
  refine bind_eq_ok.mpr ⟨(some a, none), Fills.decodeRecord ?_ ?_ ?_, rfl⟩
  · exact .set rfl (FieldDecoder.set_of (none, none) one) (.leave (.nil _))
  · simp [FieldDecoder.of, different]
  · simp [FieldDecoder.of]

end Fields

section Tags

/-- The tag in front of an object is split off, and the other members are checked. -/
theorem decodeTagged_fields {decodeTag : Decoder String} {check : Decoder Unit} {tag : String}
    {members : List (String × Json)} (accepted : decodeTag (.text tag) = .ok tag)
    (untagged : ∀ m ∈ members, m.1 ≠ tagName) (checked : ∀ m ∈ members, check m.2 = .ok ()) :
    decodeTagged decodeTag check (Json.fields ((tagName, .text tag) :: members)) =
      .ok (tag, Json.fields members) := by
  have others : splitTag decodeTag check (named members) (some tag) = .ok (tag, named members) := by
    -- None of the other members is a second tag.
    induction members with
    | nil => rfl
    | cons member members ih =>
      obtain ⟨name, value⟩ := member
      obtain ⟨different, untagged⟩ := List.forall_mem_cons.mp untagged
      obtain ⟨passes, checked⟩ := List.forall_mem_cons.mp checked
      simp only at different passes
      rw [named_cons, splitTag, if_neg different, passes]
      exact bind_eq_ok.mpr ⟨(), rfl, bind_eq_ok.mpr ⟨_, ih untagged checked, rfl⟩⟩
  -- The first member is the tag, which has not been seen before.
  have all : splitTag decodeTag check (named ((tagName, .text tag) :: members)) none =
      .ok (tag, named members) := by
    rw [named_cons, splitTag, if_pos rfl, if_neg (by simp), accepted]
    exact others
  exact bind_eq_ok.mpr ⟨_, all, rfl⟩

/-- A tag is decoded from its text if it is expected. -/
theorem decodeTag_text {tags : List String} {tag : String} (expected : tag ∈ tags) :
    decodeTag tags (.text tag) = .ok tag := by
  simp [decodeTag, Json.text, expected]

/-- A tag that is kept for later is decoded from its text as well. -/
theorem decodeStoredTag_text {tags : List String} {tag : String} (expected : tag ∈ tags) :
    decodeStoredTag tags (.text tag) = .ok tag :=
  decodeTag_text expected

end Tags

section Variants

variable {names : List String} {room : Nat} {decode : String → Decoder α}
  {plain : String → Except ReadError α} {name : String} {j : Json} {a : α}

/-- A variant is decoded if there is room for it and what it holds is decoded. -/
theorem decodeVariant_fields (expected : name ∈ names) (content : decode name j = .ok a) :
    decodeVariant names (room + 1) decode plain (Json.fields [(name, j)]) = .ok a := by
  -- The name of the only member says which variant it is.
  have tag : decodeTag names (.string (some name)) = .ok name := decodeTag_text expected
  refine bind_eq_ok.mpr ⟨name, tag, bind_eq_ok.mpr ⟨a, content, ?_⟩⟩
  rfl

/-- A value is decoded from the word that stands for it. -/
theorem decodeWord_text {words : List (String × α)} (word : words.lookup name = some a) :
    decodeWord words room (.text name) = .ok a := by
  -- A word that is looked up with success is among the words.
  have expected : name ∈ words.map Prod.fst := by
    obtain ⟨before, after, rfl, _⟩ := List.lookup_eq_some_iff.mp word
    simp
  have tag : decodeTag (words.map Prod.fst) (.string (some name)) = .ok name :=
    decodeTag_text expected
  refine bind_eq_ok.mpr ⟨name, tag, ?_⟩
  simp only [word]

variable {first : Decoder α} {second : Decoder β} {third : Decoder γ} {i k : Json} {b : β} {c : γ}

/-- A pair is decoded if both of its items are. -/
theorem decodePair_array (one : first i = .ok a) (two : second j = .ok b) :
    decodePair first second [i, j] = .ok (a, b) := by
  simp [decodePair, one, two, bind, Except.bind, pure, Except.pure]

/-- A triple is decoded if all three of its items are. -/
theorem decodeTriple_array (one : first i = .ok a) (two : second j = .ok b)
    (three : third k = .ok c) : decodeTriple first second third [i, j, k] = .ok (a, b, c) :=
  bind_eq_ok.mpr ⟨a, one, bind_eq_ok.mpr ⟨(b, c), decodePair_array two three, rfl⟩⟩

end Variants

end Parts

section Storing

/-- Values of texts, arrays and objects only, in which all names and texts are whole. -/
inductive Textual : Json → Prop
  | text (s : String) : Textual (.text s)
  | array {items : List Json} (each : ∀ item ∈ items, Textual item) : Textual (.array items)
  | fields {members : List (String × Json)} (each : ∀ member ∈ members, Textual member.2) :
    Textual (.fields members)

/-- A textual value has no number and no member without a name. -/
theorem Textual.plain {j : Json} (textual : j.Textual) : j.Plain := by
  -- Each kind of textual value is a kind of plain value.
  induction textual with
  | text s => exact .text s
  | array _ each => exact .array each
  | fields _ each => exact .fields each

/-- A list can be kept just if each of its items can be. -/
theorem areStorable_iff {room : Nat} {items : List Json} :
    areStorable room items = true ↔ ∀ item ∈ items, item.isStorable room = true := by
  -- The items are kept one by one.
  induction items with
  | nil => simp [areStorable]
  | cons item items ih => simp only [areStorable, Bool.and_eq_true, List.forall_mem_cons, ih]

/-- Members with names can be kept just if the value of each of them can be. -/
theorem areMembersStorable_iff {room : Nat} {members : List (String × Json)} :
    areMembersStorable room (named members) = true ↔
      ∀ member ∈ members, member.2.isStorable room = true := by
  induction members with
  | nil => simp [areMembersStorable]
  | cons member members ih =>
    -- The names are whole.
    obtain ⟨name, value⟩ := member
    simp only [named_cons, areMembersStorable, Option.isSome_some, Bool.true_and,
      Bool.and_eq_true, List.forall_mem_cons, ih]

/-- A textual value can be kept where there is room for its levels. -/
theorem Textual.storable {j : Json} (textual : j.Textual) {room : Nat} (within : j.nesting ≤ room) :
    j.isStorable room = true := by
  -- Every level of the value takes one level of the room.
  induction textual generalizing room with
  | text s => cases room <;> rfl
  | array _ each =>
    obtain ⟨room, rfl, fits⟩ := nesting_array_le_iff.mp within
    exact areStorable_iff.mpr fun item listed => each item listed (fits item listed)
  | fields _ each =>
    obtain ⟨room, rfl, fits⟩ := nesting_fields_le_iff.mp within
    exact areMembersStorable_iff.mpr fun member listed => each member listed (fits member listed)

/-- What can be kept is kept without an error. -/
theorem Textual.store {j : Json} (textual : j.Textual) {room : Nat} (within : j.nesting ≤ room) :
    Json.store room j = .ok () :=
  if_pos (textual.storable within)

end Storing

section Documents

variable {α β : Type}

/-- A value is decoded from what is written for it wherever there is room for its levels. -/
def Decodes (decode : Nat → Decoder α) (j : Json) (a : α) : Prop :=
  ∀ room, j.nesting ≤ room → decode room j = .ok a

/-- What is decoded one level deeper is decoded where there is room for that level. -/
theorem decodes_enter {decode : Nat → Decoder α} {members : List (String × Json)} {a : α}
    (deeper : ∀ room, (∀ member ∈ members, member.2.nesting ≤ room) →
      decode room (Json.fields members) = .ok a) :
    Decodes (enter decode) (Json.fields members) a := by
  -- The room is larger than nothing, because the object itself takes one level.
  intro room within
  obtain ⟨room, rfl, fits⟩ := nesting_fields_le_iff.mp within
  exact deeper room fits

/-- A list is decoded if each of its items is. -/
theorem decodes_list {decode : Nat → Decoder α} {toJson : α → Json} {values : List α}
    (each : ∀ a ∈ values, Decodes decode (toJson a) a) :
    Decodes (fun room => decodeList decode room) (.array (values.map toJson)) values := by
  -- Every item has the room that the array leaves.
  intro room within
  obtain ⟨room, rfl, fits⟩ := nesting_array_le_iff.mp within
  exact mapM_decode fun a listed => each a listed room (fits _ (List.mem_map_of_mem listed))

/-- A record of one list is decoded if each of its items is. -/
theorem decodes_listing {name : String} {decode : Nat → Decoder α} {toJson : α → Json}
    {values : List α} (each : ∀ a ∈ values, Decodes decode (toJson a) a) :
    Decodes (enter fun room => decodeOne name (decodeList decode room) skip)
      (Json.fields [(name, .array (values.map toJson))]) values := by
  -- The list is the value of the only field, one level below the object.
  refine decodes_enter fun room fits => ?_
  have list := decodes_list each room (fits (name, .array (values.map toJson)) (by simp))
  exact decodeOne_fields list

/-- A function is applied to what is decoded one level deeper. -/
theorem Decodes.map {decode : Nat → Decoder α} {j : Json} {a : α}
    (decodes : Decodes (enter decode) j a) (wrap : α → β) :
    Decodes (enter fun room j => (decode room j).map wrap) j (wrap a) := by
  -- Without room the decoder would have failed.
  intro room within
  have decoded := decodes room within
  cases room with
  | zero => cases decoded
  | succ room => exact congrArg (Except.map wrap) decoded

/-- What is decoded wherever there is room has a compact text of its own, however deep it is. -/
theorem compact_injective {toJson : α → Json} {decode : Nat → Decoder α}
    (plain : ∀ a, (toJson a).Plain) (decodes : ∀ a, Decodes decode (toJson a) a) :
    Function.Injective fun a => (toJson a).compact := by
  intro a b same
  -- One text is read as one document, and a document is decoded as one value.
  have texts : read (toJson a).compact = read (toJson b).compact := congrArg read same
  rw [read_compact (plain a), read_compact (plain b)] at texts
  have documents : toJson a = toJson b := congrArg Document.root texts
  have first := decodes a (toJson b).nesting (documents ▸ Nat.le_refl _)
  have second := decodes b (toJson b).nesting (Nat.le_refl _)
  rw [documents, second] at first
  exact (Except.ok.inj first).symm

/-- A value round-trips if it is read back from its compact text, which may not be too deep. -/
def RoundTrips (toJson : α → Json) (decoder : Nat → Decoder α) (a : α) : Prop :=
  (toJson a).nesting ≤ maxDepth → decode decoder (toJson a).compact = .ok a

/-- Values round-trip if they are decoded from plain values. -/
theorem roundTrips_of_decodes {toJson : α → Json} {decoder : Nat → Decoder α} {a : α}
    (plain : (toJson a).Plain) (decodes : Decodes decoder (toJson a) a) :
    RoundTrips toJson decoder a := by
  -- There is room for as many levels as are read.
  intro within
  rw [decode, read_compact plain]
  exact bind_eq_ok.mpr ⟨a, decodes maxDepth within, rfl⟩

end Documents

end ClauseForm.Json
