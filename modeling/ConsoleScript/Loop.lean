import ConsoleScript.Source.Error
import ConsoleScript.Statement.Basic

/-!
# Loops

The body of a loop is emitted on its own and then spliced into the code. Behind
it stands a jump back to its start, and every conditional break goes to that
jump.
-/

namespace ConsoleScript

/-- The code of a loop's body, and the offsets in it of the open jumps. -/
structure LoopBody where
  code : CodeBuffer := {}
  placeholders : Array Nat := #[]
deriving DecidableEq, Repr

namespace LoopBody

/-- Adds a statement to a body. -/
def add : LoopBody → Statement → LoopBody
  | ⟨code, placeholders⟩, s =>
    match s.emit code with
    | (code, some offset) => ⟨code, placeholders.push offset⟩
    | (code, none) => ⟨code, placeholders⟩

/-- The body that consists of the statements. -/
def ofStatements (statements : List Statement) : LoopBody :=
  statements.foldl add {}

end LoopBody

/-- How a jump's distance is put into 16 bits. -/
inductive JumpRange where
  /-- A distance that is too long loses its high bits. -/
  | wrapping
  /-- A distance that is too long is an error. -/
  | checked
deriving DecidableEq, Repr

/-- A distance has a signed 16-bit form. -/
def FitsInt16 (distance : Int) : Prop := -0x8000 ≤ distance ∧ distance < 0x8000

instance (distance : Int) : Decidable (FitsInt16 distance) :=
  inferInstanceAs (Decidable (_ ∧ _))

/-- The 16-bit form of a distance that the loop at the place needs. -/
def JumpRange.narrow (range : JumpRange) (place : Bytes) (distance : Int) :
    Except Fault Int16 :=
  if range = .checked ∧ ¬FitsInt16 distance then .error (.jumpOutOfRange distance place)
  else .ok (Int16.ofInt distance)

namespace CodeBuffer

/-- Lets the field at an offset jump to a target. -/
def resolve (range : JumpRange) (place : Bytes) (target : Nat) (c : CodeBuffer) (offset : Nat) :
    Except Fault CodeBuffer := do
  let distance ← range.narrow place ((target : Int) - (offset + 2 : Nat))
  return c.patch offset distance

/-- Adds a jump to a target that is already in the code. -/
def emitJumpTo (range : JumpRange) (place : Bytes) (target : Nat) (c : CodeBuffer) :
    Except Fault CodeBuffer := do
  let c := c.pushOpcode .jump
  let distance ← range.narrow place ((target : Int) - (c.size + 2 : Nat))
  return c.pushInt16 distance

/-- Adds a loop whose keyword stands at the place: the body, with its open jumps
going to the end of the body, and there a jump to the start of the body. -/
def emitLoop (range : JumpRange) (place : Bytes) (c : CodeBuffer) (body : LoopBody) :
    Except Fault CodeBuffer := do
  let start := c.size
  let stop := start + body.code.size
  let patched ← body.placeholders.toList.foldlM
    (fun c placeholder => resolve range place stop c (start + placeholder)) (c ++ body.code)
  patched.emitJumpTo range place start

end CodeBuffer

end ConsoleScript
