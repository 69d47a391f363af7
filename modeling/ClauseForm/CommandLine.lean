import ClauseForm.Json.NamedForm
import ClauseForm.Json.Settings
import ClauseForm.Pipeline

/-! The command line reads its arguments and a problem, and shows the clauses of the problem. -/

namespace ClauseForm

/-- Reads the contents of a file as text. -/
def readText (contents : Except AccessError ByteArray) : Except Error String :=
  match contents with
  | .error cause => .error (.access cause)
  | .ok bytes =>
    match String.fromUTF8? bytes with
    | some text => .ok text
    | none => .error (.access .notText)

/-- Reads the text of a problem. -/
def Named.Problem.ofText (text : String) : Except Error Named.Problem :=
  (Json.decode Named.Problem.decode text).mapError .document

/-- Reads the text of settings. -/
def Config.ofText (text : String) : Except Error Config :=
  (Json.decode Config.decode text).mapError .document

namespace CommandLine

/-- What the arguments ask for. -/
structure Options where
  problem : Option String := none
  config : Option String := none
  trace : Bool := false
  json : Bool := false
  preserveOrder : Bool := false
  maxClauses : Option Nat := none
  timeoutMs : Option Nat := none
  profile : Bool := false
  deriving DecidableEq

/-- What becomes of a list of arguments. -/
inductive Request where
  | version
  | misuse
  | run (problem : String) (options : Options)

/-- A number of at most 64 bits, which may have a plus sign. -/
def number? (text : String) : Option Nat :=
  let digits :=
    match text.toList with
    | '+' :: rest => rest
    | chars => chars
  let value := Nat.ofDigitChars 10 digits 0
  if digits.isEmpty || !digits.all Char.isDigit || value ≥ sizeBound then none else some value

/-- A path, which may not be empty. -/
def path? (text : String) : Option String := if text.isEmpty then none else some text

/-- Sets a flag, which may not be given twice. -/
def setFlag (name : String) (options : Options) : Option Options :=
  match name with
  | "trace" => if options.trace then none else some { options with trace := true }
  | "json" => if options.json then none else some { options with json := true }
  | "preserve-order" =>
    if options.preserveOrder then none else some { options with preserveOrder := true }
  | "profile" => if options.profile then none else some { options with profile := true }
  | _ => none

/-- Sets an option to a value. It may not be given twice. -/
def setValue (name value : String) (options : Options) : Option Options :=
  match name with
  | "config" =>
    if options.config.isSome then none
    else (path? value).map fun path => { options with config := some path }
  | "max-clauses" =>
    if options.maxClauses.isSome then none
    else (number? value).map fun n => { options with maxClauses := some n }
  | "timeout-ms" =>
    if options.timeoutMs.isSome then none
    else (number? value).map fun n => { options with timeoutMs := some n }
  | _ => none

/-- Whether an option takes a value. -/
def takesValue (name : String) : Bool := name ∈ ["config", "max-clauses", "timeout-ms"]

/-- Sets the path of the problem. There is one. -/
def setProblem (text : String) (options : Options) : Option Options :=
  if options.problem.isSome then none
  else (path? text).map fun path => { options with problem := some path }

/-- The paths behind the mark that ends the options. -/
def parsePaths : List String → Options → Option Options
  | [], options => some options
  | text :: rest, options => do parsePaths rest (← setProblem text options)

/-- The argument split at its first equals sign. -/
def splitValue (argument : List Char) : String × Option String :=
  let name := argument.takeWhile (· ≠ '=')
  match argument.drop name.length with
  | [] => (String.ofList name, none)
  | _ :: value => (String.ofList name, some (String.ofList value))

/-- Whether an argument cannot be the value of the option before it. -/
def looksLikeOption (text : String) : Bool :=
  match text.toList with
  | '-' :: _ :: _ => true
  | _ => false

/-- What a list of arguments asks for, given what those before it have set. -/
def parseWith : List String → Options → Request
  | [], options =>
    match options.problem with
    | some problem => .run problem options
    | none => .misuse
  | argument :: rest, options =>
    match argument.toList with
    | ['-', '-'] =>
      match parsePaths rest options with
      | none => .misuse
      | some options =>
        match options.problem with
        | some problem => .run problem options
        | none => .misuse
    | '-' :: '-' :: chars =>
      match splitValue chars with
      | (name, some value) =>
        match setValue name value options with
        | some options => parseWith rest options
        | none => .misuse
      | (name, none) =>
        if takesValue name then
          match rest with
          | [] => .misuse
          | value :: rest =>
            if looksLikeOption value then .misuse
            else
              match setValue name value options with
              | some options => parseWith rest options
              | none => .misuse
        else if name = "version" then .version
        else
          match setFlag name options with
          | some options => parseWith rest options
          | none => .misuse
    | '-' :: 'V' :: _ => .version
    | '-' :: _ :: _ => .misuse
    | _ =>
      match setProblem argument options with
      | some options => parseWith rest options
      | none => .misuse

/-- What a list of arguments asks for. -/
def parse (arguments : List String) : Request := parseWith arguments {}

/-- The settings after those read from a file have been overridden by the arguments. -/
def Options.override (options : Options) (config : Config) : Config :=
  { config with
    trace := config.trace || options.trace
    profiling := config.profiling || options.profile
    prenexOrder := if options.preserveOrder then .preserve else config.prenexOrder
    maxClauses := options.maxClauses.getD config.maxClauses
    timeoutMs := options.timeoutMs.or config.timeoutMs }

/-- What a run of the command line leaves to be seen. -/
structure Output where
  exitCode : UInt32
  stdout : String := ""
  stderr : String := ""

/-- Name and version of the program. -/
def versionText : String := "clausify 0.1.0\n"

/-- The output of a request that fails after writing some of its trace. -/
def Output.ofError (stdout : String) (error : Error) : Output :=
  { exitCode := 1, stdout, stderr := "Error: " ++ error.message ++ "\n" }

/-- The settings, and the formulas of the problem with the table of their symbols. -/
def prepare (options : Options) (problem : Except AccessError ByteArray)
    (config : Option (Except AccessError ByteArray)) :
    Except Error (Config × List Formula × SymbolTable) := do
  let config ←
    match config with
    | none => pure {}
    | some contents => Config.ofText (← readText contents)
  let problem ← Named.Problem.ofText (← readText problem)
  let (formulas, symbols) := Named.Formula.internAll problem.formulas .empty
  return (options.override config, formulas, symbols)

/-- The sink of the command line, which has room for everything. -/
def sink : Sink := .writing none .empty

/-- Text that a sink has taken. -/
def written : Sink → String
  | .writing _ bytes => (String.fromUTF8? bytes).getD ""
  | _ => ""

/-- The clauses as lines or as a document, and the profile where there is one. -/
def render (options : Options) (result : Normalized) (symbols : SymbolTable) (traced : String) :
    Output :=
  match result.clauses.mapM (Clause.named? symbols) with
  | none => .ofError traced .unknownSymbol
  | some clauses =>
    let shown :=
      if options.json then (Named.Clause.setToJson clauses).indented ++ "\n"
      else String.join (clauses.map fun c => c.text ++ "\n")
    let profile :=
      match result.profile with
      | none => ""
      | some profile => profile.toJson.indented ++ "\n"
    { exitCode := 0, stdout := traced ++ shown, stderr := profile }

/-- The output of a normalization. -/
def Output.ofOutcome (options : Options) (outcome : Outcome) : Output :=
  match outcome.result with
  | .error error => .ofError (written outcome.sink) error
  | .ok result => render options result outcome.symbols (written outcome.sink)

/-- Runs a list of arguments, where the contents of each path and the time are given. -/
def run (contents : String → Except AccessError ByteArray) (clock : Clock)
    (arguments : List String) : Output :=
  match parse arguments with
  | .version => { exitCode := 0, stdout := versionText }
  | .misuse => { exitCode := 2 }
  | .run problem options =>
    match prepare options (contents problem) (options.config.map contents) with
    | .error error => .ofError "" error
    | .ok (config, formulas, symbols) =>
      .ofOutcome options (normalize config clock formulas symbols sink)

end CommandLine

end ClauseForm
