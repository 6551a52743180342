import ConsoleScript.Listing.Basic
import ConsoleScript.Text.Escaped

/-!
# The text of a listing

Each instruction takes one line: its offset, its mnemonic, its operands and, if
it jumps, its target.
-/

namespace ConsoleScript

/-- The text of an operand. -/
def Operand.text : Operand → String
  | byte b => toString b.toNat
  | string s => Text.quoted s
  | relative n => Text.signed n.toInt

namespace Listing

/-- The operands behind the mnemonic, separated by commas. -/
def operandsText : List Operand → String
  | [] => ""
  | o :: operands => " " ++ o.text ++ String.join (operands.map fun o => ", " ++ o.text)

/-- The target behind the operands. -/
def targetText : Option Int → String
  | none => ""
  | some target => " -> " ++ Text.hex .upper 4 (Address.unsigned target)

/-- The line of an entry, without its line break. -/
def Entry.text (e : Entry) : String :=
  Text.hex .upper 4 e.offset ++ ": " ++ e.opcode.mnemonic ++ operandsText e.operands ++
    targetText e.target?

/-- The lines of a listing, each with its line break. -/
def text (l : Listing) : String :=
  String.join (l.entries.map fun e => e.text ++ "\n")

end Listing

end ConsoleScript
