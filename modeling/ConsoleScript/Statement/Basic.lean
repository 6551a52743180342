import ConsoleScript.CodeBuffer
import ConsoleScript.Executable.Basic

/-!
# Statements

A statement stands for one instruction. Its operands are constants, since
variables are replaced while the source is read.

## Implementation notes

The jump of a conditional break is not known before its loop ends. Its field is
emitted as zero, and the field's offset is kept as a placeholder.
-/

namespace ConsoleScript

/-- A statement with its operands. -/
inductive Statement where
  | print (text : Bytes)
  | putChar (value : UInt8)
  | exit
  | clear
  | setCursor (x y : UInt8)
  | readKey
  | loadFile (path : Bytes)
  | writeFile (path data : Bytes)
  | printBuf
  | printLast
  | writeBuf (path : Bytes)
  /-- Leaves the rest of the loop's body if the last byte of the machine's
  buffer has the value. -/
  | breakIfLast (value : UInt8)
deriving DecidableEq, Repr

namespace Statement

/-- The instruction of a statement, with a zero in the field of an open jump. -/
def instruction : Statement → Instruction
  | print text => ⟨.print, [.string text]⟩
  | putChar value => ⟨.putChar, [.byte value]⟩
  | exit => ⟨.exit, []⟩
  | clear => ⟨.clear, []⟩
  | setCursor x y => ⟨.setCursor, [.byte x, .byte y]⟩
  | readKey => ⟨.readKey, []⟩
  | loadFile path => ⟨.loadFile, [.string path]⟩
  | writeFile path data => ⟨.writeFile, [.string path, .string data]⟩
  | printBuf => ⟨.printBuf, []⟩
  | printLast => ⟨.printLast, []⟩
  | writeBuf path => ⟨.writeBuf, [.string path]⟩
  | breakIfLast value => ⟨.jumpIfLast, [.byte value, .relative 0]⟩

/-- The facilities that a statement uses. -/
def requiredFlags : Statement → Flags
  | clear | setCursor .. | readKey | printBuf | printLast => .console
  | loadFile _ | writeFile .. | writeBuf _ => .fileAccess
  | print _ | putChar _ | exit | breakIfLast _ => ∅

/-- The offset of the open jump's field in a statement emitted at `start`: it
stands behind the opcode and the value. -/
def placeholder? (start : Nat) : Statement → Option Nat
  | breakIfLast _ => some (start + 2)
  | _ => none

/-- Adds the statement's instruction, and tells where its open jump is. -/
def emit (c : CodeBuffer) (s : Statement) : CodeBuffer × Option Nat :=
  let placeholder? := s.placeholder? c.size
  (c.emit s.instruction, placeholder?)

/-- The nearest value of a coordinate that fits a byte. -/
def coordinate (n : Int32) : UInt8 :=
  UInt8.ofNat (min 255 n.toInt.toNat)

/-- A statement's instruction has the operands that its opcode demands. -/
theorem kinds_instruction (s : Statement) :
    s.instruction.operands.map Operand.kind = s.instruction.opcode.operandKinds := by
  cases s <;> rfl

theorem placeholder?_eq_some_iff {s : Statement} {start offset : Nat} :
    s.placeholder? start = some offset ↔ (∃ value, s = breakIfLast value) ∧ offset = start + 2 := by
  cases s <;> simp [placeholder?, eq_comm]

end Statement

end ConsoleScript
