import ConsoleScript.Bytes.LittleEndian
import ConsoleScript.Instruction.Opcode

/-!
# Instructions and their encoding

An instruction is an opcode with its operands. Its encoding is the opcode's
byte followed by the operand fields.

## Implementation notes

A listing may be put together by hand, so an instruction's operands need not
be those that its opcode demands; `Instruction.WellFormed` says when they are
and when the encoding can be read back.
-/

namespace ConsoleScript

/-- The value of one operand field. -/
inductive Operand where
  /-- One byte. -/
  | byte (value : UInt8)
  /-- The bytes of a string, without its terminating zero. -/
  | string (value : Bytes)
  /-- A distance from the end of the field. -/
  | relative (distance : Int16)
deriving DecidableEq, Repr

namespace Operand

/-- The kind of field that stores the operand. -/
def kind : Operand → OperandKind
  | byte _ => .byte
  | string _ => .string
  | relative _ => .relative

/-- The bytes of the operand field. -/
def encode : Operand → Bytes
  | byte b => [b]
  | string s => s ++ [0]
  | relative n => Bytes.ofInt16 n

/-- The number of bytes of the operand field. -/
def size (o : Operand) : Nat := o.encode.length

/-- The field ends where a reader takes it to end: a string holds no zero. -/
def Delimited : Operand → Prop
  | string s => 0 ∉ s
  | _ => True

instance (o : Operand) : Decidable o.Delimited :=
  match o with
  | string s => inferInstanceAs (Decidable (0 ∉ s))
  | byte _ => isTrue trivial
  | relative _ => isTrue trivial

end Operand

/-- An opcode with its operands. -/
structure Instruction where
  opcode : Opcode
  operands : List Operand
deriving DecidableEq, Repr

namespace Instruction

/-- The bytes of the instruction. -/
def encode (i : Instruction) : Bytes :=
  i.opcode.toByte :: i.operands.flatMap Operand.encode

/-- The number of bytes of the instruction. -/
def size (i : Instruction) : Nat := i.encode.length

/-- The operands are of the kinds that the opcode demands, and every field ends
where a reader takes it to end. -/
def WellFormed (i : Instruction) : Prop :=
  i.operands.map Operand.kind = i.opcode.operandKinds ∧ ∀ o ∈ i.operands, o.Delimited

instance (i : Instruction) : Decidable i.WellFormed :=
  inferInstanceAs (Decidable (_ ∧ _))

/-- The distance of the last relative operand. -/
def distance? (i : Instruction) : Option Int16 :=
  i.operands.reverse.findSome? fun
    | .relative n => some n
    | _ => none

theorem encode_ne_nil (i : Instruction) : i.encode ≠ [] := List.cons_ne_nil _ _

theorem size_pos (i : Instruction) : 0 < i.size := Nat.succ_pos _

end Instruction

end ConsoleScript
