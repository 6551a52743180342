import ConsoleScript.Loop
import ConsoleScript.Script.Basic

/-!
# Programs

A script becomes a program: its code, which ends in an exit, the facilities it
uses, and the number of variables it declares.

## Implementation notes

The first error counts. An item that cannot be assembled stands in front of any
fault at which reading stopped, so it wins.
-/

namespace ConsoleScript

/-- What a compilation is told beside the source. -/
structure CompileOptions where
  maxVariables : Nat := 512
  jumpRange : JumpRange := .wrapping
deriving DecidableEq, Repr

/-- The code that items become, with what is known of it. -/
structure Program where
  code : CodeBuffer := {}
  flags : Flags := ∅
  /-- The number of declarations, repeated names included. -/
  declared : Nat := 0
deriving DecidableEq, Repr

namespace Program

/-- Adds a statement. -/
def addStatement : Program → Statement → Program
  | ⟨code, flags, declared⟩, s => ⟨code.emit s.instruction, flags ∪ s.requiredFlags, declared⟩

/-- Adds a loop whose keyword stands at the place. -/
def addLoop (range : JumpRange) : Program → Bytes → List Statement → Except Fault Program
  | ⟨code, flags, declared⟩, place, body => do
    let code ← code.emitLoop range place (.ofStatements body)
    return ⟨code, body.foldl (fun flags s => flags ∪ s.requiredFlags) flags, declared⟩

/-- Adds an item. -/
def add (range : JumpRange) (p : Program) : Item → Except Fault Program
  | .remark => .ok p
  | .declaration _ => .ok { p with declared := p.declared + 1 }
  | .statement s => .ok (p.addStatement s)
  | .loop place body => p.addLoop range place body

/-- The program with an exit at its end. -/
def closed (p : Program) : Program := { p with code := p.code.closed }

/-- The program of the items of a script, in front of its exit. -/
def assemble (range : JumpRange) (script : Script) : Except Fault Program :=
  script.items.foldlM (add range) {}

/-- The program of a script, or its first error. -/
def ofScript (range : JumpRange) (script : Script) : Except Fault Program := do
  let p ← assemble range script
  match script.fault? with
  | some e => throw e
  | none => return p.closed

end Program

/-- Compiles a source. -/
def compile (options : CompileOptions) (source : Bytes) :
    Except (CompileError Location) Program :=
  (Program.ofScript options.jumpRange (Script.read options.maxVariables source)).mapError
    (·.map (Location.within source))

/-- Compiles a source into the file of an executable. -/
def compileExecutable (options : CompileOptions) (source : Bytes) :
    Except (CompileError Location) Bytes := do
  let p ← compile options source
  (p.code.finish p.flags).mapError .outOfMemory

end ConsoleScript
