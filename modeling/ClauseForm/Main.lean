import ClauseForm.CommandLine
import ClauseForm.Timing

/-! The program reads the files it is given, watches the clock, and prints what the run leaves. -/

namespace ClauseForm.Main

/-- Contents of a file. -/
def contents (path : String) : IO (Except AccessError ByteArray) := do
  try
    return .ok (← IO.FS.readBinFile path)
  catch
    | .noFileOrDirectory .. => return .error .notFound
    | other => return .error (.other (toString other))

/-- Normalizes formulas within the time that the settings give. -/
def normalizeNow (config : Config) (formulas : List Formula) (symbols : SymbolTable) :
    IO Outcome := do
  let origin ← IO.monoNanosNow
  let elapsed := do return (← IO.monoNanosNow) - origin
  normalizeAsking config elapsed formulas symbols CommandLine.sink

/-- Runs a list of arguments on the files of the system. -/
def output (arguments : List String) : IO CommandLine.Output := do
  match CommandLine.parse arguments with
  | .version => return { exitCode := 0, stdout := CommandLine.versionText }
  | .misuse => return { exitCode := 2 }
  | .run problem options =>
    let config ← options.config.mapM contents
    match CommandLine.prepare options (← contents problem) config with
    | .error error => return .ofError "" error
    | .ok (config, formulas, symbols) =>
      return .ofOutcome options (← normalizeNow config formulas symbols)

end ClauseForm.Main

/-- Prints the output of a run and ends with its code. -/
def main (arguments : List String) : IO UInt32 := do
  let output ← ClauseForm.Main.output arguments
  IO.print output.stdout
  IO.eprint output.stderr
  return output.exitCode
