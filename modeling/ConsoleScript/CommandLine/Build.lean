import ConsoleScript.CommandLine.Directory
import ConsoleScript.CommandLine.Options
import ConsoleScript.Listing.Decode
import ConsoleScript.Listing.Json
import ConsoleScript.Listing.Text

/-!
# Builds

A build reads a source, compiles it and writes the executable. It writes only
when all else has succeeded.
-/

namespace ConsoleScript

/-- Why a build produced nothing. -/
inductive BuildError where
  | unreadable (path : String)
  | rejected (cause : CompileError Location)
  /-- The listing that was asked for cannot be made of the code. -/
  | undecodable (cause : DecodeError)
  | outOfMemory (cause : OutOfMemory)
  | unwritable (path : String)
deriving DecidableEq, Repr

/-- The text of a failed build. -/
def BuildError.message : BuildError → String
  | unreadable path => s!"Failed to read {path}"
  | rejected cause => s!"Compile error: {cause.message}"
  | undecodable cause => cause.message
  | outOfMemory cause => cause.message
  | unwritable path => s!"Failed to write {path}"

/-- What a build tells when it has written the executable. -/
structure BuildReport where
  output : String
  codeLength : Nat
  flags : Flags
  /-- The listing, if it was asked for. -/
  dump? : Option String
deriving DecidableEq, Repr

/-- The lines of a report. -/
def BuildReport.lines (r : BuildReport) : List String :=
  r.dump?.toList ++
    [s!"Wrote {r.output} (code bytes: {r.codeLength}) flags=0x" ++
      Text.hex .upper 2 r.flags.bits.toNat]

/-- The report as it is printed, each line with its line break. -/
def BuildReport.text (r : BuildReport) : String :=
  String.join (r.lines.map (· ++ "\n"))

namespace BuildOptions

/-- The listing of a code section in the form that was asked for. -/
def dump? (o : BuildOptions) (code : Bytes) : Except DecodeError (Option String) :=
  if o.has .dump then do
    let l ← Listing.decode code
    return some (if o.has .json then l.json else l.text)
  else .ok none

/-- The executable's file that a source becomes, and the report on it. -/
def produce (o : BuildOptions) (source : Bytes) : Except BuildError (Bytes × BuildReport) := do
  let p ← (compile o.compileOptions source).mapError .rejected
  let dump? ← (o.dump? p.code.toList).mapError .undecodable
  let file ← (p.code.finish p.flags).mapError .outOfMemory
  return (file, { output := o.output, codeLength := p.code.size, flags := p.flags, dump? })

/-- Builds an executable. -/
def build {m : Type → Type} [Monad m] [Storage m] (o : BuildOptions) :
    m (Except BuildError BuildReport) := do
  let some source ← Storage.read? o.input | return .error (.unreadable o.input)
  match o.produce source with
  | .error e => return .error e
  | .ok (file, report) =>
    if ← Storage.write o.output file then return .ok report
    else return .error (.unwritable o.output)

end BuildOptions

end ConsoleScript
