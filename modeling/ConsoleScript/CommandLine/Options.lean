import ConsoleScript.Program

/-!
# Command line arguments

A command line names the source and the output, and may hold flags and a limit
for the number of variables.

## Implementation notes

A value is checked when the next argument has been understood. So an argument
that is unknown, or one too many, is reported in place of a wrong value in front
of it, and all other errors are reported in their order.
-/

namespace ConsoleScript

/-- Arguments that are given at most once and have no value. -/
inductive CommandFlag where
  | verbose
  | checkedJumps
  | dump
  | json
deriving DecidableEq, Repr

/-- What a build is asked for. -/
structure BuildOptions where
  input : String
  output : String
  flags : List CommandFlag
  maxVariables : Nat
deriving DecidableEq, Repr

/-- Why arguments lead to no build. -/
inductive Interruption where
  | help
  | version
  | missingArgument
  | unknownArgument
  | repeatedArgument
  | missingValue
  | invalidNumber
  | unexpectedValue
deriving DecidableEq, Repr

/-- The exit code: asking for information is no error. -/
def Interruption.exitCode : Interruption → Nat
  | help | version => 0
  | _ => 2

namespace BuildOptions

/-- Whether a flag was given. -/
def has (o : BuildOptions) (f : CommandFlag) : Bool := o.flags.contains f

/-- The part of the options that the compilation depends on. -/
def compileOptions (o : BuildOptions) : CompileOptions where
  maxVariables := o.maxVariables
  jumpRange := if o.has .checkedJumps then .checked else .wrapping

end BuildOptions

/-- The meaning of an option's name. -/
inductive OptionName where
  | flag (f : CommandFlag)
  | maxVariables
  | help
  | version
deriving DecidableEq, Repr

namespace OptionName

/-- The option that is spelled out behind two hyphens. -/
def ofLong? : String → Option OptionName
  | "verbose" => some (flag .verbose)
  | "checked-jumps" => some (flag .checkedJumps)
  | "dump" => some (flag .dump)
  | "json" => some (flag .json)
  | "max-variables" => some maxVariables
  | "help" => some help
  | "version" => some version
  | _ => none

/-- The option that is a letter behind one hyphen. -/
def ofShort? : Char → Option OptionName
  | 'v' => some (flag .verbose)
  | 'h' => some help
  | 'V' => some version
  | _ => none

end OptionName

/-- The form of an argument. -/
inductive Argument where
  /-- Two hyphens: all arguments behind them are plain. -/
  | separator
  /-- An option that is spelled out, perhaps with a value. -/
  | long (name : String) (value? : Option String)
  /-- Options of one letter each. -/
  | short (letters : List Char)
  | plain (text : String)
deriving DecidableEq, Repr

/-- The form that an argument has by its first characters. -/
def Argument.ofString (s : String) : Argument :=
  match s.toList with
  | ['-', '-'] => separator
  | '-' :: '-' :: text =>
    let name := String.ofList (text.takeWhile (· != '='))
    match text.dropWhile (· != '=') with
    | [] => long name none
    | _ :: value => long name (some (String.ofList value))
  | '-' :: letter :: letters => short (letter :: letters)
  | _ => plain s

/-- Values that still have to be checked. -/
inductive PendingValue where
  | path (text : String)
  /-- The limit, whose value may be the next plain argument. -/
  | maxVariables (value? : Option String)
deriving DecidableEq, Repr

/-- What the arguments so far have given. -/
structure CommandState where
  paths : List String := []
  flags : List CommandFlag := []
  maxVariables? : Option Nat := none
  pending? : Option PendingValue := none
  plainOnly : Bool := false
deriving DecidableEq, Repr

namespace CommandState

/-- A decimal numeral of 64 bits, which a plus may precede. -/
def number? (s : String) : Option Nat :=
  let digits := match s.toList with
    | '+' :: digits => digits
    | digits => digits
  if digits.isEmpty || !digits.all Char.isDigit then none
  else
    let n := digits.foldl (fun n d => 10 * n + (d.toNat - '0'.toNat)) 0
    if n < 0x10000000000000000 then some n else none

/-- Sets the limit, which may be done once. -/
def setMaxVariables (state : CommandState) (value : String) :
    Except Interruption CommandState :=
  if state.maxVariables?.isSome then .error .repeatedArgument
  else
    match number? value with
    | none => .error .invalidNumber
    | some n => .ok { state with maxVariables? := some n }

/-- Checks the value that is still to be checked. -/
def settle (state : CommandState) : Except Interruption CommandState :=
  let settled := { state with pending? := none }
  match state.pending? with
  | none => .ok settled
  | some (.path text) =>
    if text.isEmpty then .error .missingValue
    else .ok { settled with paths := state.paths ++ [text] }
  | some (.maxVariables none) => .error .missingValue
  | some (.maxVariables (some value)) => settled.setMaxVariables value

/-- Adds a flag, which may be given once. -/
def addFlag (state : CommandState) (f : CommandFlag) : Except Interruption CommandState := do
  let state ← state.settle
  if f ∈ state.flags then throw .repeatedArgument
  return { state with flags := f :: state.flags }

/-- Stops for an answer to a question, after what stands in front of it. -/
def answer (state : CommandState) (question : Interruption) :
    Except Interruption CommandState := do
  let _ ← state.settle
  throw question

/-- Adds an option that is spelled out. -/
def addLong (state : CommandState) (name : String) (value? : Option String) :
    Except Interruption CommandState :=
  match OptionName.ofLong? name, value? with
  | none, _ => .error .unknownArgument
  | some .maxVariables, none => do
    let state ← state.settle
    return { state with pending? := some (.maxVariables none) }
  | some .maxVariables, some value => do
    let state ← state.settle
    state.setMaxVariables value
  | some _, some _ => .error .unexpectedValue
  | some (.flag f), none => state.addFlag f
  | some .help, none => state.answer .help
  | some .version, none => state.answer .version

/-- Adds an option of one letter. -/
def addShort (state : CommandState) (letter : Char) : Except Interruption CommandState :=
  match OptionName.ofShort? letter with
  | some (.flag f) => state.addFlag f
  | some .help => state.answer .help
  | some .version => state.answer .version
  | some .maxVariables | none => .error .unknownArgument

/-- The number of paths so far, checked or not. -/
def pathCount (state : CommandState) : Nat :=
  match state.pending? with
  | some (.path _) => state.paths.length + 1
  | _ => state.paths.length

/-- Adds a path, of which there are two. -/
def addPath (state : CommandState) (text : String) : Except Interruption CommandState :=
  if 2 ≤ state.pathCount then .error .unknownArgument
  else do
    let state ← state.settle
    return { state with pending? := some (.path text) }

/-- Adds a plain argument: a value for an option that waits for one, or a path. -/
def addPlain (state : CommandState) (text : String) : Except Interruption CommandState :=
  match state.pending? with
  | some (.maxVariables none) =>
    .ok { state with pending? := some (.maxVariables (some text)) }
  | _ => state.addPath text

/-- Adds the next argument. -/
def add (state : CommandState) (s : String) : Except Interruption CommandState :=
  if state.plainOnly then state.addPath s
  else
    match Argument.ofString s with
    | .separator => .ok { state with plainOnly := true }
    | .long name value? => state.addLong name value?
    | .short letters => letters.foldlM addShort state
    | .plain text => state.addPlain text

/-- The options that all arguments together give. -/
def options (state : CommandState) : Except Interruption BuildOptions := do
  let state ← state.settle
  match state.paths with
  | [input, output] =>
    if .json ∈ state.flags ∧ .dump ∉ state.flags then throw .missingArgument
    return {
      input, output
      flags := state.flags
      maxVariables := state.maxVariables?.getD 512 }
  | _ => throw .missingArgument

end CommandState

/-- The options that a command line gives. -/
def BuildOptions.ofArguments (arguments : List String) : Except Interruption BuildOptions := do
  let state ← arguments.foldlM CommandState.add {}
  state.options

end ConsoleScript
