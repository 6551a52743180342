import ConsoleScript.Script.Item

/-!
# Scripts

A script is read into its items. Reading stops at the first fault, and the
items in front of it are kept.

## Implementation notes

What the items are does not depend on the code that they become, so reading
comes first and a fault in it is reported only if the items in front of it can
be assembled.
-/

namespace ConsoleScript

/-- The items of a source up to the first fault, and that fault if there is one. -/
structure Script where
  items : List Item
  fault? : Option Fault
deriving DecidableEq, Repr

namespace Script

/-- Reads items with the declared variables, behind the items already read. -/
def readItems (table : VariableTable) (done : Array Item) (s : Bytes) : Script :=
  match _h : (Reader.item table).run s with
  | .error e _ => ⟨done.toList, some e⟩
  | .ok none _ => ⟨done.toList, none⟩
  | .ok (some (item, table)) rest => readItems table (done.push item) rest
termination_by s.length
decreasing_by exact Reader.length_lt_of_item _ _h

/-- The script of a source that may declare so many variables. -/
def read (maxVariables : Nat) (source : Bytes) : Script :=
  readItems { capacity := maxVariables } #[] source

end Script

end ConsoleScript
