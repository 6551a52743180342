import ConsoleScript.Source.Literal

/-!
# Operands in a source

An operand is a literal or the name of a variable that holds a constant of the
same kind.

## Implementation notes

What starts like a literal is read as one, so a name that starts with a digit
is never looked up in the place of an integer.
-/

namespace ConsoleScript

namespace Value

/-- The integer, if the constant is one. -/
def int? : Value → Option Int32
  | int n => some n
  | string _ => none

/-- The string, if the constant is one. -/
def string? : Value → Option Bytes
  | int _ => none
  | string s => some s

end Value

namespace Reader

variable {α : Type}

/-- Takes a name and gives the constant that it stands for, which has to be of
the expected kind. -/
def constant (table : VariableTable) (kind : ValueKind) (select : Value → Option α)
    (expectation : String) : Reader α := do
  let place ← get
  let name ← requiredName expectation
  match table.find? name with
  | none => throw (.undefinedVariable name place)
  | some v =>
    match select v.value with
    | none => throw (.wrongKind name kind place)
    | some value => return value

/-- Takes a string literal or the name of a string. -/
def stringOperand (table : VariableTable) : Reader Bytes := do
  if (← significant) = some (ascii '"') then string
  else constant table .string Value.string? "Expected string literal or variable"

/-- The byte starts an integer literal. -/
def startsInteger (b : UInt8) : Bool := b == ascii '-' || Bytes.isDigit b

/-- Takes an integer literal or the name of an integer. -/
def intOperand (table : VariableTable) : Reader Int32 := do
  if (← significant).any startsInteger then integer
  else constant table .int Value.int? "Expected int literal or variable"

variable (table : VariableTable)

theorem forward_constant (kind : ValueKind) (select : Value → Option α) (expectation : String) :
    Forward (constant table kind select expectation) := by
  refine forward_get.bind fun place => (forward_requiredName expectation).bind fun name => ?_
  split
  · exact forward_throw _
  · split
    · exact forward_throw _
    · exact forward_pure _

theorem forward_stringOperand : Forward (stringOperand table) := by
  refine forward_significant.bind fun b => ?_
  split
  · exact forward_string
  · exact forward_constant table _ _ _

theorem forward_intOperand : Forward (intOperand table) := by
  refine forward_significant.bind fun b => ?_
  split
  · exact forward_integer
  · exact forward_constant table _ _ _

end Reader

end ConsoleScript
