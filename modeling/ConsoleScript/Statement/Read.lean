import ConsoleScript.Source.Operand
import ConsoleScript.Statement.Basic

/-!
# Reading statements

A statement is a keyword, its operands and a semicolon. Which keywords there are
depends on where the statement stands.
-/

namespace ConsoleScript

/-- Where a statement stands. -/
inductive Scope where
  | topLevel
  | loopBody
deriving DecidableEq, Repr

namespace Reader

/-- Takes two coordinates, between which a comma may stand. -/
def setCursorOperands (table : VariableTable) : Reader Statement := do
  let x ← intOperand table
  let _ ← eat (ascii ',')
  let y ← intOperand table
  return .setCursor (Statement.coordinate x) (Statement.coordinate y)

/-- Takes a path and a text, between which a comma stands. -/
def writeFileOperands (table : VariableTable) : Reader Statement := do
  let path ← stringOperand table
  expect (ascii ',') "Expected ',' after path in writefile"
  let data ← stringOperand table
  return .writeFile path data

/-- Takes the value of a conditional break, of which the low byte counts. -/
def breakIfLastOperand (table : VariableTable) : Reader Statement := do
  let value ← intOperand table
  return .breakIfLast value.toUInt32.toUInt8

/-- Takes the operands that belong to the keyword that stands at the place. -/
def operandsOf (table : VariableTable) (scope : Scope) (place : Bytes) :
    String → Reader Statement
  | "print" => .print <$> stringOperand table
  | "putchar" => .putChar <$> char
  | "exit" => return .exit
  | "clear" => return .clear
  | "setcursor" => setCursorOperands table
  | "readkey" => return .readKey
  | "readfile" => .loadFile <$> stringOperand table
  | "writefile" => writeFileOperands table
  | "printbuf" => return .printBuf
  | "printlast" => return .printLast
  | "writebuf" => .writeBuf <$> stringOperand table
  | keyword =>
    match scope, keyword with
    | .loopBody, "breakiflast" => breakIfLastOperand table
    | .loopBody, "loop" => throw (.nestedLoop place)
    | _, _ => throw (.unknownStatement keyword place)

/-- Takes what belongs to the keyword that stands at the place, up to and
including the semicolon. -/
def statement (table : VariableTable) (scope : Scope) (place : Bytes) (keyword : String) :
    Reader Statement := do
  let s ← operandsOf table scope place keyword
  expect (ascii ';') s!"Expected ';' after {keyword}"
  return s

variable (table : VariableTable)

theorem Forward.map {α β : Type} {r : Reader α} (hr : Forward r) (f : α → β) :
    Forward (f <$> r) :=
  hr.bind fun a => forward_pure (f a)

theorem forward_setCursorOperands : Forward (setCursorOperands table) :=
  (forward_intOperand table).bind fun _ => (forward_eat _).bind fun _ =>
    (forward_intOperand table).bind fun _ => forward_pure _

theorem forward_writeFileOperands : Forward (writeFileOperands table) :=
  (forward_stringOperand table).bind fun _ => (forward_expect _ _).bind fun _ =>
    (forward_stringOperand table).bind fun _ => forward_pure _

theorem forward_operandsOf (scope : Scope) (place : Bytes) (keyword : String) :
    Forward (operandsOf table scope place keyword) := by
  unfold operandsOf
  split
  case h_1 | h_7 | h_11 => exact (forward_stringOperand table).map _
  case h_2 => exact forward_char.map _
  case h_5 => exact forward_setCursorOperands table
  case h_8 => exact forward_writeFileOperands table
  case h_3 | h_4 | h_6 | h_9 | h_10 => exact forward_pure _
  case h_12 =>
    split
    · exact (forward_intOperand table).bind fun _ => forward_pure _
    · exact forward_throw _
    · exact forward_throw _

theorem forward_statement (scope : Scope) (place : Bytes) (keyword : String) :
    Forward (statement table scope place keyword) :=
  (forward_operandsOf table scope place keyword).bind fun _ =>
    (forward_expect _ _).bind fun _ => forward_pure _

end Reader

end ConsoleScript
