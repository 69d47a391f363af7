import ClauseForm.Json.NamedForm
import ClauseForm.Json.Settings
import ClauseForm.Proofs.Decoding

/-! Documents written with names, and those for settings, are read back as they were. -/

namespace ClauseForm

open Json

section Tagged

variable {α : Type} {tags : List String} {decodeFields : Nat → String → Json → Except ReadError α}
  {j : Json} {a : α}

/-- A value is written as an object with a tag in front of the fields from which it is decoded. -/
def Json.Tagged (tags : List String) (decodeFields : Nat → String → Json → Except ReadError α)
    (j : Json) (a : α) : Prop :=
  ∃ tag members, j = Json.fields ((tagName, .text tag) :: members) ∧ tag ∈ tags ∧
    (∀ m ∈ members, m.1 ≠ tagName ∧ m.2.Textual) ∧
    ∀ room, (∀ m ∈ members, m.2.nesting ≤ room) →
      decodeFields room tag (Json.fields members) = .ok a

/-- A tagged value can be kept. -/
theorem Json.Tagged.textual (tagged : Tagged tags decodeFields j a) : j.Textual := by
  -- The tag is a text, and the fields can be kept.
  obtain ⟨tag, members, rfl, _, each, _⟩ := tagged
  refine .fields fun m listed => ?_
  rcases List.mem_cons.mp listed with rfl | inside
  · exact .text tag
  · exact (each m inside).2

/-- A tagged value is decoded whole, whether or not it is checked that its fields can be kept. -/
theorem Json.Tagged.decoded (tagged : Tagged tags decodeFields j a) {room : Nat}
    (within : j.nesting ≤ room + 1) {decodeTag : Decoder String} {check : Decoder Unit}
    (accepted : ∀ tag ∈ tags, decodeTag (.text tag) = .ok tag)
    (checked : ∀ j : Json, j.Textual → j.nesting ≤ room → check j = .ok ()) :
    (do
      let (tag, fields) ← decodeTagged decodeTag check j
      decodeFields room tag fields) = .ok a := by
  obtain ⟨tag, members, rfl, expected, each, decoded⟩ := tagged
  obtain ⟨_, same, fits⟩ := nesting_fields_le_iff.mp within
  obtain rfl := Nat.succ.inj same
  -- The tag takes no room of its own.
  have fits := (List.forall_mem_cons.mp fits).2
  refine bind_eq_ok.mpr ⟨(tag, Json.fields members), decodeTagged_fields (accepted tag expected)
    (fun m listed => (each m listed).1) (fun m listed => ?_), decoded room fits⟩
  exact checked m.2 (each m listed).2 (fits m listed)

/-- No value with a tag in front is found where there is no room. -/
theorem Json.Tagged.exists_room (tagged : Tagged tags decodeFields j a) {room : Nat}
    (within : j.nesting ≤ room) : ∃ inner, room = inner + 1 := by
  -- An object takes a level of its own.
  obtain ⟨tag, members, rfl, _⟩ := tagged
  obtain ⟨inner, same, _⟩ := nesting_fields_le_iff.mp within
  exact ⟨inner, same⟩

end Tagged

namespace Named

section Terms

/-- A record of one name is read as that name. -/
theorem decodeOne_name (s : String) :
    decodeOne "name" decodeText skipStored (Json.fields [("name", .text s)]) = .ok s :=
  decodeOne_fields rfl

/-- The document of an application has its name and those of its arguments. -/
@[simp] theorem Term.toJson_app (f : String) (args : List Term) :
    (app f args).toJson = Json.fields
      [(tagName, .text "function"), ("name", .text f), ("args", .array (args.map toJson))] := by
  simp [toJson, fold, foldAll_eq_map]

/-- Fields of terms, with arguments within values that are kept. -/
def Term.decodeWithin (room : Nat) : String → Json → Except ReadError Term :=
  Term.decodeFields (Term.decodeAllStored room)

/-- A tagged term is decoded within a value that is kept. -/
theorem Term.decodeStored_tagged {t : Term} (tagged : Tagged termTags decodeWithin t.toJson t)
    {room : Nat} (within : t.toJson.nesting ≤ room) : decodeStored room t.toJson = .ok t := by
  -- The room has a level for the object of the term.
  obtain ⟨room, rfl⟩ := tagged.exists_room within
  exact tagged.decoded within (fun _ => decodeStoredTag_text) fun _ _ _ => rfl

/-- Tagged terms are decoded one after the other. -/
theorem Term.decodeAllStored_tagged {args : List Term}
    (each : ∀ t ∈ args, Tagged termTags decodeWithin t.toJson t) {room : Nat}
    (within : (Json.array (args.map toJson)).nesting ≤ room) :
    decodeAllStored room (.array (args.map toJson)) = .ok args := by
  obtain ⟨room, rfl, fits⟩ := nesting_array_le_iff.mp within
  exact mapM_decode fun t listed =>
    decodeStored_tagged (each t listed) (fits _ (List.mem_map_of_mem listed))

/-- Every term is written with a tag. -/
theorem Term.tagged (t : Term) : Tagged termTags decodeWithin t.toJson t := by
  -- The arguments of an application are tagged themselves.
  induction t with
  | var x =>
    refine ⟨"variable", [("name", .text x)], rfl, by decide, ?_, fun room fits => ?_⟩
    · simp [tagName, Textual.text]
    · exact congrArg (Except.map Term.var) (decodeOne_name x)
  | const c =>
    refine ⟨"constant", [("name", .text c)], rfl, by decide, ?_, fun room fits => ?_⟩
    · simp [tagName, Textual.text]
    · exact congrArg (Except.map Term.const) (decodeOne_name c)
  | app f args ih =>
    have textual : (Json.array (args.map toJson)).Textual :=
      .array (List.forall_mem_map.mpr fun t listed => (ih t listed).textual)
    refine ⟨"function", [("name", .text f), ("args", .array (args.map toJson))], toJson_app f args,
      by decide, ?_, fun room fits => ?_⟩
    · simp [tagName, Textual.text, textual]
    · have parts := decodeAllStored_tagged ih (fits ("args", .array (args.map toJson)) (by simp))
      exact bind_eq_ok.mpr ⟨(f, args), decodeTwo_fields (by decide) rfl parts, rfl⟩

end Terms

section Atoms

variable {a : Atom}

/-- The members for an atom are its predicate and its arguments, where there are any. -/
theorem Atom.mem_members {m : String × Json} : m ∈ a.members ↔
    m = ("predicate", .text a.predicate) ∨
      a.args ≠ [] ∧ m = ("args", .array (a.args.map Term.toJson)) := by
  rw [members]
  -- An atom without arguments has no member for them.
  split
  · simp_all
  · simp_all

/-- The members for an atom can be kept, and none of them is a tag. -/
theorem Atom.textual_members {m : String × Json} (listed : m ∈ a.members) :
    m.1 ≠ tagName ∧ m.2.Textual := by
  rcases mem_members.mp listed with rfl | ⟨_, rfl⟩
  · exact ⟨by simp [tagName], .text a.predicate⟩
  · exact ⟨by simp [tagName], .array (List.forall_mem_map.mpr fun t _ => t.tagged.textual)⟩

/-- An atom is decoded from its members, whether or not its arguments are left out. -/
theorem Atom.decodeFields_members {decodeArgs : Decoder (List Term)} {skip : Decoder Unit}
    (parts : a.args ≠ [] → decodeArgs (.array (a.args.map Term.toJson)) = .ok a.args) :
    Atom.decodeFields decodeArgs skip (Json.fields a.members) = .ok a := by
  obtain ⟨predicate, args⟩ := a
  cases args with
  | nil =>
    -- No arguments are written, and none is what the decoder falls back on.
    exact bind_eq_ok.mpr ⟨(predicate, []), decodeTwo_fallback (by decide) rfl, rfl⟩
  | cons t ts =>
    have given := parts (by simp)
    exact bind_eq_ok.mpr ⟨(predicate, t :: ts), decodeTwo_fields (by decide) rfl given, rfl⟩

end Atoms

section Formulas

/-- Fields of formulas, with formulas and terms in them within values that are kept. -/
def Formula.decodeWithin (room : Nat) : String → Json → Except ReadError Formula :=
  Formula.decodeFields (Term.decodeAllStored room) (Formula.decodeStored room)

/-- A tagged formula is decoded within a value that is kept. -/
theorem Formula.decodeStored_tagged {f : Formula}
    (tagged : Tagged formulaTags decodeWithin f.toJson f) {room : Nat}
    (within : f.toJson.nesting ≤ room) : decodeStored room f.toJson = .ok f := by
  -- The room has a level for the object of the formula.
  obtain ⟨room, rfl⟩ := tagged.exists_room within
  exact tagged.decoded within (fun _ => decodeStoredTag_text) fun _ _ _ => rfl

/-- Every formula is written with a tag. -/
theorem Formula.tagged (f : Formula) : Tagged formulaTags decodeWithin f.toJson f := by
  -- The parts of a formula are tagged themselves.
  induction f with
  | atom a =>
    refine ⟨"atom", a.members, rfl, by decide, fun m => Atom.textual_members, fun room fits => ?_⟩
    have atom : Atom.decodeFields (Term.decodeAllStored room) skipStored (Json.fields a.members) =
        .ok a :=
      Atom.decodeFields_members fun given => Term.decodeAllStored_tagged (fun t _ => t.tagged)
        (fits _ (Atom.mem_members.mpr (Or.inr ⟨given, rfl⟩)))
    exact congrArg (Except.map Formula.atom) atom
  | not f ih =>
    refine ⟨"not", [("formula", f.toJson)], rfl, by decide, ?_, fun room fits => ?_⟩
    · simp [tagName, ih.textual]
    · have part := decodeStored_tagged ih (fits ("formula", f.toJson) (by simp))
      have decoded : decodeOne "formula" (decodeStored room) skipStored
          (Json.fields [("formula", f.toJson)]) = .ok f := decodeOne_fields part
      exact congrArg (Except.map Formula.not) decoded
  | binary op l r left right =>
    refine ⟨connectiveTag op, [("left", l.toJson), ("right", r.toJson)], rfl, ?_, ?_,
      fun room fits => ?_⟩
    · cases op <;> decide
    · simp [tagName, left.textual, right.textual]
    · have one := decodeStored_tagged left (fits ("left", l.toJson) (by simp))
      have two := decodeStored_tagged right (fits ("right", r.toJson) (by simp))
      have operands : decodeTwo "left" (decodeStored room) "right" (decodeStored room) none
          skipStored (Json.fields [("left", l.toJson), ("right", r.toJson)]) = .ok (l, r) :=
        decodeTwo_fields (by decide) one two
      -- All connectives have their operands in the same two fields.
      cases op <;> exact bind_eq_ok.mpr ⟨(l, r), operands, rfl⟩
  | quantified q name f ih =>
    refine ⟨quantifierTag q, [("variable", .text name), ("body", f.toJson)], rfl, ?_, ?_,
      fun room fits => ?_⟩
    · cases q <;> decide
    · simp [tagName, Textual.text, ih.textual]
    · have part := decodeStored_tagged ih (fits ("body", f.toJson) (by simp))
      have scope : decodeTwo "variable" decodeText "body" (decodeStored room) none skipStored
          (Json.fields [("variable", .text name), ("body", f.toJson)]) = .ok (name, f) :=
        decodeTwo_fields (by decide) rfl part
      cases q <;> exact bind_eq_ok.mpr ⟨(name, f), scope, rfl⟩

end Formulas

section Documents

/-- A term is decoded wherever there is room for it, as all its fields can be kept. -/
theorem Term.decodes (t : Term) : Decodes Term.decode t.toJson t := by
  -- Fields are checked as they are kept, which those of a term can be.
  intro room within
  obtain ⟨room, rfl⟩ := t.tagged.exists_room within
  exact t.tagged.decoded within (fun _ => decodeTag_text) fun _ textual fits => textual.store fits

/-- A formula is decoded wherever there is room for it, as all its fields can be kept. -/
theorem Formula.decodes (f : Formula) : Decodes Formula.decode f.toJson f := by
  intro room within
  obtain ⟨room, rfl⟩ := f.tagged.exists_room within
  exact f.tagged.decoded within (fun _ => decodeTag_text) fun _ textual fits => textual.store fits

/-- A problem is decoded with its formulas. -/
theorem Problem.decodes (p : Problem) : Decodes Problem.decode p.toJson p :=
  (decodes_listing fun f (_ : f ∈ p.formulas) => f.decodes).map Problem.mk

/-- An atom is decoded with its arguments. -/
theorem Atom.decodes (a : Atom) : Decodes Atom.decode a.toJson a := by
  -- An atom has no tag, and its arguments are written one level deeper.
  refine decodes_enter fun room fits => ?_
  exact decodeFields_members fun given => decodes_list (fun t (_ : t ∈ a.args) => t.decodes) room
    (fits _ (mem_members.mpr (Or.inr ⟨given, rfl⟩)))

/-- A literal is decoded with its atom. -/
theorem Literal.decodes (l : Literal) : Decodes Literal.decode l.toJson l := by
  -- The atom is written one level deeper.
  refine decodes_enter fun room fits => ?_
  have atom := l.atom.decodes room (fits ("atom", l.atom.toJson) (by simp))
  exact bind_eq_ok.mpr ⟨(l.positive, l.atom), decodeTwo_fields (by decide) rfl atom, rfl⟩

/-- A clause is decoded with its literals. -/
theorem Clause.decodes (c : Clause) : Decodes Clause.decode c.toJson c :=
  (decodes_listing fun l (_ : l ∈ c.literals) => l.decodes).map Clause.mk

/-- Clauses are decoded together. -/
theorem Clause.decodes_set (cs : List Clause) :
    Decodes Clause.decodeSet (Clause.setToJson cs) cs :=
  decodes_listing fun c (_ : c ∈ cs) => c.decodes

/-- The document of a problem is plain. -/
theorem Problem.plain (p : Problem) : p.toJson.Plain :=
  Plain.listing "formulas" fun f _ => f.tagged.textual.plain

/-- The document of an atom is plain. -/
theorem Atom.plain (a : Atom) : a.toJson.Plain :=
  .fields fun _ listed => (textual_members listed).2.plain

/-- The document of a literal is plain. -/
theorem Literal.plain (l : Literal) : l.toJson.Plain :=
  .fields (by simp [Plain.bool, l.atom.plain])

/-- The document of a clause is plain. -/
theorem Clause.plain (c : Clause) : c.toJson.Plain :=
  Plain.listing "literals" fun l _ => l.plain

/-- The document of several clauses is plain. -/
theorem Clause.plain_set (cs : List Clause) : (Clause.setToJson cs).Plain :=
  Plain.listing "clauses" fun c _ => c.plain

end Documents

end Named

section Settings

/-- A word for an order of quantifiers is read as that order. -/
theorem PrenexOrder.decode_toJson (order : PrenexOrder) (room : Nat) :
    PrenexOrder.decode room order.toJson = .ok order := by
  -- The word of each order is among those that are expected.
  apply decodeWord_text
  cases order <;> rfl

/-- A limit that may be missing is decoded if it is small enough where there is one. -/
theorem decodeOption_nat {bound : Nat} (n : Option Nat) : (∀ m ∈ n, m < bound) →
    decodeOption (decodeBelow bound)
      (match n with
        | none => .null
        | some m => .nat m) = .ok n := by
  -- A missing limit is written as nothing.
  intro below
  cases n with
  | none => rfl
  | some m => exact congrArg (Except.map some) (decodeBelow_nat (below m rfl))

/-- Settings are decoded if their limits are small enough for documents. -/
theorem Config.decodes {config : Config} (clauses : config.maxClauses < sizeBound)
    (timeout : ∀ ms ∈ config.timeoutMs, ms < sizeBound) :
    Decodes Config.decode config.toJson config := by
  refine decodes_enter fun room fits => ?_
  have bool (b : Bool) : decodeBool (.bool b) = .ok b := rfl
  have order := config.prenexOrder.decode_toJson room
  have clauses := decodeBelow_nat clauses
  have timeout := decodeOption_nat config.timeoutMs timeout
  let made : ConfigDraft :=
    { trace := some config.trace, prenexOrder := some config.prenexOrder
      maxClauses := some config.maxClauses, timeoutMs := some config.timeoutMs
      checkInvariants := some config.checkInvariants, profiling := some config.profiling }
  -- All settings are written, in the order of the fields, so that none keeps its usual value.
  have fills : Fills (ConfigDraft.fields room) _ {} made :=
    .set rfl (FieldDecoder.set_of _ (bool config.trace)) <|
    .set rfl (FieldDecoder.set_of _ order) <|
    .set rfl (FieldDecoder.set_of _ clauses) <|
    .set rfl (FieldDecoder.set_of _ timeout) <|
    .set rfl (FieldDecoder.set_of _ (bool config.checkInvariants)) <|
    .set rfl (FieldDecoder.set_of _ (bool config.profiling)) (.nil _)
  have decoded : decodeRecord (ConfigDraft.fields room) skip {} _ = .ok made :=
    fills.decodeRecord (by simp [ConfigDraft.fields, FieldDecoder.of])
      (by simp [ConfigDraft.fields, FieldDecoder.of])
  exact congrArg (Except.map ConfigDraft.complete) decoded

/-- The document for settings is plain. -/
theorem Config.plain (config : Config) : config.toJson.Plain := by
  -- A timeout is written as a number or as nothing.
  obtain ⟨trace, order, clauses, timeout, check, profile⟩ := config
  refine .fields ?_
  cases timeout with
  | none => simp [Plain.bool, Plain.nat, Plain.null, PrenexOrder.toJson, Plain.text]
  | some ms => simp [Plain.bool, Plain.nat, PrenexOrder.toJson, Plain.text]

end Settings

section RoundTrips

/-- Whatever is written with names is read back from its compact text, and settings are as well. -/
theorem named_roundTrips :
    (∀ p : Named.Problem, RoundTrips Named.Problem.toJson Named.Problem.decode p) ∧
      (∀ f : Named.Formula, RoundTrips Named.Formula.toJson Named.Formula.decode f) ∧
      (∀ t : Named.Term, RoundTrips Named.Term.toJson Named.Term.decode t) ∧
      (∀ cs : List Named.Clause, RoundTrips Named.Clause.setToJson Named.Clause.decodeSet cs) ∧
      (∀ c : Named.Clause, RoundTrips Named.Clause.toJson Named.Clause.decode c) ∧
      (∀ l : Named.Literal, RoundTrips Named.Literal.toJson Named.Literal.decode l) ∧
      (∀ a : Named.Atom, RoundTrips Named.Atom.toJson Named.Atom.decode a) ∧
      ∀ config : Config, config.maxClauses < sizeBound →
        (∀ ms ∈ config.timeoutMs, ms < sizeBound) →
          RoundTrips Config.toJson Config.decode config := by
  -- Each document is plain, and each is decoded where there is room for it.
  refine ⟨fun p => ?_, fun f => ?_, fun t => ?_, fun cs => ?_, fun c => ?_, fun l => ?_,
    fun a => ?_, fun config clauses timeout => ?_⟩
  · exact roundTrips_of_decodes p.plain p.decodes
  · exact roundTrips_of_decodes f.tagged.textual.plain f.decodes
  · exact roundTrips_of_decodes t.tagged.textual.plain t.decodes
  · exact roundTrips_of_decodes (Named.Clause.plain_set cs) (Named.Clause.decodes_set cs)
  · exact roundTrips_of_decodes c.plain c.decodes
  · exact roundTrips_of_decodes l.plain l.decodes
  · exact roundTrips_of_decodes a.plain a.decodes
  · exact roundTrips_of_decodes config.plain (Config.decodes clauses timeout)

/-- A problem whose names need escapes and whose lists of arguments are empty. -/
def Named.Problem.escaped : Named.Problem :=
  ⟨[.quantified .universal "\"\\\x01\n" (.atom ⟨"größer\x00", [.var "\"\\\x01\n", .app "\t𝑓/" []]⟩),
    .not (.atom ⟨"", []⟩)]⟩

/-- Settings with the greatest limits that can be read. -/
def Config.widest : Config :=
  { maxClauses := sizeBound - 1, timeoutMs := some (sizeBound - 1) }

/-- No name is too strange, and no limit that can be set is too great. -/
theorem named_roundTrips_escaped :
    decode Named.Problem.decode Named.Problem.escaped.toJson.compact =
        .ok Named.Problem.escaped ∧
      decode Config.decode Config.widest.toJson.compact = .ok Config.widest := by
  obtain ⟨problems, _, _, _, _, _, _, settings⟩ := named_roundTrips
  -- The documents are not nested too deeply, and the limits are below the bound.
  refine ⟨problems Named.Problem.escaped (by decide), ?_⟩
  exact settings Config.widest (by decide) (by simp [Config.widest, sizeBound]) (by decide)

end RoundTrips

end ClauseForm
