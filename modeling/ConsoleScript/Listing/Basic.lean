import ConsoleScript.Address
import ConsoleScript.Instruction.Basic
import Std.Data.TreeMap

/-!
# Listings of code sections

A listing holds the instructions of a code section with their places, the
length of the section, and a map from offsets to instructions.

## Implementation notes

The map is a part of the listing and not computed from the entries, so that a
listing may say of an offset that an instruction starts there although its
entries do not reach that far. `Listing.ofEntries` gives the map that belongs
to the entries.

Ends and targets are reduced to words of 64 bits. `Entry.stop_of_lt` and
`Entry.target?_of_lt` say when that changes nothing.
-/

namespace ConsoleScript

/-- An instruction at its place in a code section. -/
structure Listing.Entry extends Instruction where
  offset : Nat
  size : Nat
deriving DecidableEq, Repr

namespace Listing.Entry

/-- The offset just behind the instruction. -/
def stop (e : Entry) : Nat := Address.unsigned (e.offset + e.size : Nat)

/-- Where the instruction jumps to: its last relative operand counts from the
end of the instruction. -/
def target? (e : Entry) : Option Int :=
  e.distance?.map fun n => Address.signed (e.stop + n.toInt)

theorem stop_of_lt {e : Entry} (h : e.offset + e.size < 0x10000000000000000) :
    e.stop = e.offset + e.size :=
  Address.unsigned_of_lt h

/-- A jump goes as far from the end of its instruction as its operand says, if
that does not lead into the upper half of the words. -/
theorem target?_of_lt {e : Entry} {n : Int16} (hn : e.distance? = some n)
    (h : e.stop + n.toInt < 0x8000000000000000) : e.target? = some (e.stop + n.toInt) := by
  have hle := n.le_toInt
  rw [target?, hn, Option.map_some, Address.signed_of_le_of_lt (by omega) h]

/-- An instruction placed at an offset, with the size of its encoding. -/
def place (offset : Nat) (i : Instruction) : Entry :=
  { toInstruction := i, offset, size := i.size }

@[simp] theorem offset_place {offset : Nat} {i : Instruction} :
    (place offset i).offset = offset := rfl

@[simp] theorem toInstruction_place {offset : Nat} {i : Instruction} :
    (place offset i).toInstruction = i := rfl

@[simp] theorem size_place {offset : Nat} {i : Instruction} :
    (place offset i).size = i.size := rfl

end Listing.Entry

/-- The disassembly of a code section. -/
structure Listing where
  entries : List Listing.Entry
  codeLength : Nat
  /-- The index of the entry that starts at an offset. -/
  addressMap : Std.TreeMap Nat Nat

namespace Listing

/-- Adds each entry's offset with the entry's index. -/
def addressesOf (entries : List Entry) : Std.TreeMap Nat Nat :=
  entries.zipIdx.foldl (fun addresses (e, index) => addresses.insert e.offset index) {}

/-- The listing of the entries with the map that belongs to them. -/
def ofEntries (entries : List Entry) (codeLength : Nat) : Listing :=
  { entries, codeLength, addressMap := addressesOf entries }

/-- The entry that the map gives for an offset. -/
def entryAt? (l : Listing) (offset : Nat) : Option Entry :=
  l.addressMap[offset]?.bind (l.entries[·]?)

end Listing

end ConsoleScript
