/-!
# Opcodes of the console machine

Each instruction starts with one byte that names it and fixes the kinds of the
operand fields behind it.
-/

namespace ConsoleScript

/-- What an instruction makes the machine do. -/
inductive Opcode where
  /-- Writes one byte to the console. -/
  | putChar
  /-- Writes a string to the console. -/
  | print
  /-- Reads a file into the machine's buffer. -/
  | loadFile
  /-- Writes a string to a file. -/
  | writeFile
  /-- Writes the machine's buffer to the console. -/
  | printBuf
  /-- Writes the machine's buffer to a file. -/
  | writeBuf
  /-- Writes the last byte of the machine's buffer to the console. -/
  | printLast
  /-- Appends one key press to the machine's buffer. -/
  | readKey
  /-- Clears the screen. -/
  | clear
  /-- Moves the cursor to a column and a row. -/
  | setCursor
  /-- Jumps always. -/
  | jump
  /-- Jumps if the last byte of the machine's buffer equals the operand. -/
  | jumpIfLast
  /-- Does nothing. -/
  | noop
  /-- Ends the program. -/
  | exit
deriving DecidableEq, Repr

/-- How an operand field is stored. -/
inductive OperandKind where
  /-- One byte. -/
  | byte
  /-- Bytes up to and including a terminating zero. -/
  | string
  /-- A signed 16-bit distance from the end of the field. -/
  | relative
deriving DecidableEq, Repr

namespace Opcode

/-- The byte that names the opcode. -/
def toByte : Opcode → UInt8
  | putChar => 0x01
  | print => 0x02
  | loadFile => 0x10
  | writeFile => 0x11
  | printBuf => 0x12
  | writeBuf => 0x13
  | printLast => 0x14
  | readKey => 0x20
  | clear => 0x30
  | setCursor => 0x31
  | jump => 0x50
  | jumpIfLast => 0x51
  | noop => 0xF4
  | exit => 0xFF

/-- The opcode that a byte names. -/
def ofByte? : UInt8 → Option Opcode
  | 0x01 => some putChar
  | 0x02 => some print
  | 0x10 => some loadFile
  | 0x11 => some writeFile
  | 0x12 => some printBuf
  | 0x13 => some writeBuf
  | 0x14 => some printLast
  | 0x20 => some readKey
  | 0x30 => some clear
  | 0x31 => some setCursor
  | 0x50 => some jump
  | 0x51 => some jumpIfLast
  | 0xF4 => some noop
  | 0xFF => some exit
  | _ => none

@[simp] theorem ofByte?_toByte (op : Opcode) : ofByte? op.toByte = some op := by
  cases op <;> rfl

theorem ofByte?_eq_some_iff {b : UInt8} {op : Opcode} : ofByte? b = some op ↔ b = op.toByte := by
  constructor
  · intro h
    unfold ofByte? at h
    split at h <;> simp_all <;> subst h <;> rfl
  · rintro rfl
    exact ofByte?_toByte op

/-- The kinds of the operand fields, in order. -/
def operandKinds : Opcode → List OperandKind
  | putChar => [.byte]
  | print | loadFile | writeBuf => [.string]
  | writeFile => [.string, .string]
  | setCursor => [.byte, .byte]
  | jump => [.relative]
  | jumpIfLast => [.byte, .relative]
  | printBuf | printLast | readKey | clear | noop | exit => []

/-- The opcode's word in the text of a listing. -/
def mnemonic : Opcode → String
  | putChar => "putchar"
  | print => "print"
  | loadFile => "readfile"
  | writeFile => "writefile"
  | printBuf => "printbuf"
  | writeBuf => "writebuf"
  | printLast => "printlast"
  | readKey => "readkey"
  | clear => "clear"
  | setCursor => "setcursor"
  | jump => "jmp"
  | jumpIfLast => "jeq_last"
  | noop => "noop"
  | exit => "exit"

/-- The opcode's name in structured output and in messages. -/
def name : Opcode → String
  | putChar => "PutChar"
  | print => "Print"
  | loadFile => "ReadFile"
  | writeFile => "WriteFile"
  | printBuf => "PrintBuf"
  | writeBuf => "WriteBuf"
  | printLast => "PrintLast"
  | readKey => "ReadKey"
  | clear => "Clear"
  | setCursor => "SetCursor"
  | jump => "JmpRel16"
  | jumpIfLast => "JeqLast"
  | noop => "Noop"
  | exit => "Exit"

/-- Whether the instruction may go on elsewhere than behind itself. -/
def isJump : Opcode → Bool
  | jump | jumpIfLast => true
  | _ => false

theorem isJump_iff {op : Opcode} : op.isJump = true ↔ .relative ∈ op.operandKinds := by
  cases op <;> decide

end Opcode

end ConsoleScript
