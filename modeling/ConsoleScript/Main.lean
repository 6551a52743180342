import ConsoleScript.CommandLine.Build

/-!
# The command line program

Files are read and written here, and the outcome is printed.
-/

namespace ConsoleScript

instance : Storage IO where
  read? path := do
    try
      let content ← IO.FS.readBinFile path
      return some content.data.toList
    catch _ => return none
  write path content := do
    try
      IO.FS.writeBinFile path ⟨content.toArray⟩
      return true
    catch _ => return false

/-- The lines that explain how the program is called. -/
def usage : String :=
  "Usage: consolescript [OPTIONS] <INPUT> <OUTPUT>\n\n" ++
    "  -v, --verbose            Tell more on standard error\n" ++
    "      --checked-jumps      Reject jumps that do not fit in 16 bits\n" ++
    "      --max-variables <N>  Limit the number of variables [default: 512]\n" ++
    "      --dump               Print the listing of the code\n" ++
    "      --json               Print the listing as JSON\n" ++
    "  -h, --help               Print this text\n" ++
    "  -V, --version            Print the version"

/-- The text for an interruption. -/
def Interruption.text : Interruption → String
  | help => usage
  | version => "consolescript 0.1.0"
  | missingArgument => "error: a required argument is missing\n\n" ++ usage
  | unknownArgument => "error: an argument was not expected\n\n" ++ usage
  | repeatedArgument => "error: an option was given twice\n\n" ++ usage
  | missingValue => "error: a value is missing\n\n" ++ usage
  | invalidNumber => "error: a number is not valid\n\n" ++ usage
  | unexpectedValue => "error: a flag takes no value\n\n" ++ usage

/-- Builds what the arguments ask for, and gives the exit code. -/
def run (arguments : List String) : IO UInt32 := do
  match BuildOptions.ofArguments arguments with
  | .error interruption =>
    if interruption.exitCode = 0 then IO.println interruption.text
    else IO.eprintln interruption.text
    return interruption.exitCode.toUInt32
  | .ok options =>
    match ← (options.build : IO (Except BuildError BuildReport)) with
    | .error e =>
      IO.eprintln s!"Error: {e.message}"
      return 1
    | .ok report =>
      if options.has .verbose then
        IO.eprintln s!"written: {report.output}"
      IO.print report.text
      return 0

end ConsoleScript

/-- The program. -/
def main (arguments : List String) : IO UInt32 := ConsoleScript.run arguments
