import ClauseForm.Config
import ClauseForm.Decimal.Shortest
import ClauseForm.Json.SymbolForm
import ClauseForm.Profile

/-! Documents for settings, stages and profiles. -/

namespace ClauseForm

open Json

/-- Word for an order of quantifiers. -/
def PrenexOrder.key : PrenexOrder → String
  | .existentialsFirst => "existentials_first"
  | .preserve => "preserve"

/-- The orders of quantifiers by their words. -/
def PrenexOrder.byKey : List (String × PrenexOrder) :=
  [PrenexOrder.existentialsFirst, .preserve].map fun order => (order.key, order)

/-- An order of quantifiers as its word. -/
def PrenexOrder.toJson (order : PrenexOrder) : Json := .text order.key

/-- Decodes an order of quantifiers. -/
def PrenexOrder.decode (room : Nat) (j : Json) : Except ReadError PrenexOrder :=
  decodeWord byKey room j

/-- The stages by their words. -/
def Stage.byKey : List (String × Stage) := Stage.all.map fun stage => (stage.key, stage)

/-- A stage as its word. -/
def Stage.toJson (stage : Stage) : Json := .text stage.key

/-- Decodes a stage. -/
def Stage.decode (room : Nat) (j : Json) : Except ReadError Stage := decodeWord byKey room j

/-- Settings as an object. -/
def Config.toJson (config : Config) : Json :=
  Json.fields [("trace", .bool config.trace), ("prenex_order", config.prenexOrder.toJson),
    ("max_clauses", .nat config.maxClauses),
    ("timeout_ms",
      match config.timeoutMs with
      | none => .null
      | some ms => .nat ms),
    ("check_invariants", .bool config.checkInvariants),
    ("enable_profiling", .bool config.profiling)]

/-- The settings that have been read. -/
structure ConfigDraft where
  trace : Option Bool := none
  prenexOrder : Option PrenexOrder := none
  maxClauses : Option Nat := none
  timeoutMs : Option (Option Nat) := none
  checkInvariants : Option Bool := none
  profiling : Option Bool := none

/-- The settings read, and the usual values for those that were not. -/
def ConfigDraft.complete (draft : ConfigDraft) : Config :=
  let usual : Config := {}
  { trace := draft.trace.getD usual.trace
    prenexOrder := draft.prenexOrder.getD usual.prenexOrder
    maxClauses := draft.maxClauses.getD usual.maxClauses
    timeoutMs := draft.timeoutMs.getD usual.timeoutMs
    checkInvariants := draft.checkInvariants.getD usual.checkInvariants
    profiling := draft.profiling.getD usual.profiling }

/-- The fields of settings, each of which may be left out. -/
def ConfigDraft.fields (room : Nat) : List (FieldDecoder ConfigDraft) :=
  [.of "trace" true (·.trace) (fun b draft => { draft with trace := some b }) decodeBool,
    .of "prenex_order" true (·.prenexOrder)
      (fun order draft => { draft with prenexOrder := some order }) (PrenexOrder.decode room),
    .of "max_clauses" true (·.maxClauses) (fun n draft => { draft with maxClauses := some n })
      (decodeBelow sizeBound),
    .of "timeout_ms" true (·.timeoutMs) (fun ms draft => { draft with timeoutMs := some ms })
      (decodeOption (decodeBelow sizeBound)),
    .of "check_invariants" true (·.checkInvariants)
      (fun b draft => { draft with checkInvariants := some b }) decodeBool,
    .of "enable_profiling" true (·.profiling) (fun b draft => { draft with profiling := some b })
      decodeBool]

/-- Decodes settings. -/
def Config.decode : Nat → Decoder Config :=
  enter fun room j =>
    (decodeRecord (ConfigDraft.fields room) skip {} j).map ConfigDraft.complete

/--
The literal of decimal digits, the last of which has a power of ten. It is written without an
exponent where it takes at most sixteen places before the point or four zeros after it.
-/
def Json.Number.ofDigits (digits : List Char) (power : Int) : Number :=
  let point := digits.length + power
  if 0 ≤ power ∧ point ≤ 16 then
    { whole := digits ++ List.replicate power.toNat '0', fraction := some ['0'] }
  else if 0 < point ∧ point ≤ 16 then
    { whole := digits.take point.toNat, fraction := some (digits.drop point.toNat) }
  else if -5 < point ∧ point ≤ 0 then
    { whole := ['0'], fraction := some (List.replicate (-point).toNat '0' ++ digits) }
  else
    { whole := digits.take 1
      fraction := if digits.length = 1 then none else some (digits.drop 1)
      exponent := some (point ≤ 0, Nat.toDigits 10 (point - 1).natAbs) }

/-- The literal of a time given in nanoseconds and written in seconds. -/
def Json.Number.ofNanoseconds (time : Nat) : Number :=
  -- Whole seconds and the rest are added as floating-point numbers.
  let seconds := Float.ofNat (time / 1000000000) + Float.ofNat (time % 1000000000) / 1e9
  if time = 0 then { whole := ['0'], fraction := some ['0'] }
  else
    let (digits, power) := (Decimal.Binary.ofFloat seconds).shortest
    ofDigits digits power

/-- A profile as an object, with its times in seconds. -/
def Profile.toJson (profile : Profile) : Json :=
  let seconds := fun time => Json.number (.ofNanoseconds time)
  Json.fields [("total_time", seconds profile.totalTime),
    ("stage_times",
      Json.fields (profile.stageTimes.map fun (stage, time) => (stage.key, seconds time))),
    ("input_formulas", .nat profile.inputFormulas),
    ("fresh_variables", .nat profile.freshVariables),
    ("skolem_symbols", .nat profile.skolemSymbols),
    ("clauses", .nat profile.clauses),
    ("max_clause_len", .nat profile.maxClauseLength),
    ("max_clause_variables", .nat profile.maxClauseVariables),
    ("max_term_depth", .nat profile.maxTermDepth),
    ("tautologies", .nat profile.tautologies)]

end ClauseForm
