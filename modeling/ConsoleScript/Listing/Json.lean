import ConsoleScript.Listing.Basic

/-!
# The JSON text of a listing

A listing is an object with the list of its instructions and the length of the
code section. Members and elements stand on lines of their own, indented by two
spaces a level.
-/

namespace ConsoleScript

namespace Json

/-- A line break and the indentation of a nesting depth. -/
def newline (depth : Nat) : String :=
  "\n" ++ String.ofList (List.replicate (2 * depth) ' ')

/-- Parts one level deeper than their brackets, separated by commas. -/
def parts (depth : Nat) : List String → String
  | [] => ""
  | p :: ps =>
    newline (depth + 1) ++ p ++ String.join (ps.map fun p => "," ++ newline (depth + 1) ++ p) ++
      newline depth

/-- A list of elements that are written for one level deeper. -/
def list (depth : Nat) (elements : List String) : String :=
  "[" ++ parts depth elements ++ "]"

/-- An object whose members are written for one level deeper. -/
def object (depth : Nat) (members : List (String × String)) : String :=
  "\x7b" ++ parts depth (members.map fun (name, value) => "\"" ++ name ++ "\": " ++ value) ++
    "\x7d"

/-- A word between double quotes. -/
def word (s : String) : String := "\"" ++ s ++ "\""

end Json

/-- The word for an operand's kind. -/
def OperandKind.jsonName : OperandKind → String
  | byte => "byte"
  | string => "bytes"
  | relative => "rel16"

/-- The value of an operand: a number, or a list of numbers for a string. -/
def Operand.jsonValue (depth : Nat) : Operand → String
  | byte b => toString b.toNat
  | string s => Json.list depth (s.map fun b => toString b.toNat)
  | relative n => toString n.toInt

/-- An operand with its kind. -/
def Operand.json (depth : Nat) (o : Operand) : String :=
  Json.object depth
    [("kind", Json.word o.kind.jsonName), ("value", o.jsonValue (depth + 1))]

namespace Listing

/-- An instruction with its place. -/
def Entry.json (depth : Nat) (e : Entry) : String :=
  Json.object depth
    [("offset", toString e.offset), ("size", toString e.size),
      ("opcode", Json.word e.opcode.name),
      ("operands", Json.list (depth + 1) (e.operands.map (Operand.json (depth + 2))))]

/-- The whole listing, without a line break at its end. -/
def json (l : Listing) : String :=
  Json.object 0
    [("instructions", Json.list 1 (l.entries.map (Entry.json 2))),
      ("code_len", toString l.codeLength)]

end Listing

end ConsoleScript
