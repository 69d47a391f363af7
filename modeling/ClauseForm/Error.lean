import ClauseForm.Stage

/-! The causes of failure, and their messages. -/

namespace ClauseForm

/-- Reasons why a document is not read. -/
inductive ReadError where
  | missingField (name : String)
  | duplicateField (name : String)
  | unknownVariant (name : String) (expected : List String)
  /-- The text breaks the rules of the format or holds a value of the wrong type. -/
  | malformed
  deriving DecidableEq

/-- Reasons why a file is not read or a trace not written. -/
inductive AccessError where
  | notFound
  | notText
  | sinkFull
  | other (reason : String)
  deriving DecidableEq

/-- Everything that makes an operation fail. -/
inductive Error where
  | access (cause : AccessError)
  | document (cause : ReadError)
  /-- A formula holds an operand that is no literal, given by its inspection text. -/
  | notClausal (operand : String)
  | timeout (stage : Stage)
  | clauseLimitExceeded (stage : Stage) (limit : Nat)
  | invariantViolated (stage : Stage)
  /-- A symbol has no name in the symbol table. -/
  | unknownSymbol
  deriving DecidableEq

/-- The choice among names that a message offers. -/
def ReadError.expectation : List String → String
  | [] => "there are no variants"
  | [name] => "expected `" ++ name ++ "`"
  | [first, second] => "expected `" ++ first ++ "` or `" ++ second ++ "`"
  | names =>
    "expected one of " ++ String.intercalate ", " (names.map fun name => "`" ++ name ++ "`")

/-- Message for a document that is not read, where it has one of its own. -/
def ReadError.message? : ReadError → Option String
  | .missingField name => some ("missing field `" ++ name ++ "`")
  | .duplicateField name => some ("duplicate field `" ++ name ++ "`")
  | .unknownVariant name expected =>
    some ("unknown variant `" ++ name ++ "`, " ++ expectation expected)
  | .malformed => none

/-- Message for a file that is not read or a trace not written. -/
def AccessError.message : AccessError → String
  | .notFound => "No such file or directory (os error 2)"
  | .notText => "stream did not contain valid UTF-8"
  | .sinkFull => "sink full"
  | .other reason => reason

/-- Message of an error. -/
def Error.message : Error → String
  | .access cause => "IO error: " ++ cause.message
  | .document _ => "JSON error"
  | .notClausal operand => "Formula is not clausal: " ++ operand
  | .timeout stage => "Normalization timed out during " ++ stage.heading
  | .clauseLimitExceeded stage limit =>
    "Clause limit of " ++ toString limit ++ " exceeded during " ++ stage.heading
  | .invariantViolated stage => "Invariant violated after " ++ stage.heading
  | .unknownSymbol => "symbol without a name"

end ClauseForm
