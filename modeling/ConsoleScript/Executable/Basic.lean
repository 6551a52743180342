import ConsoleScript.Bytes.LittleEndian
import ConsoleScript.CodeBuffer

/-!
# Executables

An executable is a code section with the flags that announce which facilities
of the machine it uses. Its file is a header of sixteen bytes followed by the
code section:

* four magic bytes,
* the version of the format,
* the flags, whose bits without a meaning are kept,
* the length of the code section as a 32-bit number,
* six reserved bytes, written as zeros.
-/

namespace ConsoleScript

/-- The facilities that a program announces, one bit each. -/
structure Flags where
  bits : UInt8 := 0
deriving DecidableEq, Repr

namespace Flags

/-- The program reads or writes files. -/
def fileAccess : Flags := ⟨0x01⟩

/-- The program controls the screen, reads keys or shows the machine's buffer. -/
def console : Flags := ⟨0x02⟩

/-- The facilities that either side announces. -/
def union (f g : Flags) : Flags := ⟨f.bits ||| g.bits⟩

instance : Union Flags := ⟨union⟩

instance : EmptyCollection Flags := ⟨⟨0⟩⟩

/-- Every bit of `g` is set in `f`. -/
def Contains (f g : Flags) : Prop := f.bits &&& g.bits = g.bits

instance (f g : Flags) : Decidable (f.Contains g) :=
  inferInstanceAs (Decidable (_ = _))

@[simp] theorem bits_empty : (∅ : Flags).bits = 0 := rfl

@[simp] theorem bits_union (f g : Flags) : (f ∪ g).bits = f.bits ||| g.bits := rfl

@[simp] theorem empty_union (f : Flags) : ∅ ∪ f = f := by
  cases f
  show Flags.mk _ = _
  simp

@[simp] theorem union_empty (f : Flags) : f ∪ ∅ = f := by
  cases f
  show Flags.mk _ = _
  simp

theorem union_assoc (f g h : Flags) : f ∪ g ∪ h = f ∪ (g ∪ h) := by
  show Flags.mk _ = Flags.mk _
  simp [UInt8.or_assoc]

end Flags

/-- A code section with its flags. -/
structure Executable where
  flags : Flags
  code : Bytes
deriving DecidableEq, Repr

namespace Executable

/-- The bytes that every executable starts with. -/
def magic : Bytes := [0x42, 0x45, 0x58, 0x45]

/-- The version of the format. -/
def formatVersion : UInt8 := 1

/-- The number of bytes in front of the code section. -/
def headerSize : Nat := 16

/-- The bytes of the header that have no meaning yet. -/
def reserved : Bytes := List.replicate 6 0

/-- The header of an executable. -/
def header (x : Executable) : Bytes :=
  magic ++ formatVersion :: x.flags.bits :: (Bytes.littleEndian 4 x.code.length ++ reserved)

/-- The whole file of an executable. -/
def encode (x : Executable) : Bytes := x.header ++ x.code

/-- The length of the code section fits the header's field. -/
def Fits (x : Executable) : Prop := x.code.length < 0x100000000

instance (x : Executable) : Decidable x.Fits :=
  inferInstanceAs (Decidable (_ < _))

@[simp] theorem length_header (x : Executable) : x.header.length = headerSize := by
  simp [header, magic, reserved, headerSize]

end Executable

/-- The number of bytes that could not be provided for a code buffer. -/
structure OutOfMemory where
  requested : Nat
deriving DecidableEq, Repr

/-- The text of an exhausted memory. -/
def OutOfMemory.message (e : OutOfMemory) : String :=
  s!"Failed to grow code buffer to {e.requested} bytes"

namespace CodeBuffer

/-- The buffer with an exit behind it, unless it ends with one. -/
def closed (c : CodeBuffer) : CodeBuffer :=
  if c.endsWithExit then c else c.emit ⟨.exit, []⟩

/-- The file of the executable with the buffer's content, closed by an exit. A
code section that is too long for the header does not fit into memory. -/
def finish (c : CodeBuffer) (flags : Flags) : Except OutOfMemory Bytes :=
  let x : Executable := ⟨flags, c.closed.toList⟩
  if x.Fits then .ok x.encode else .error ⟨Executable.headerSize + x.code.length⟩

@[simp] theorem endsWithExit_closed (c : CodeBuffer) : c.closed.endsWithExit = true := by
  unfold closed
  split
  · assumption
  · simp [endsWithExit]

theorem closed_of_endsWithExit {c : CodeBuffer} (h : c.endsWithExit = true) : c.closed = c := by
  simp [closed, h]

end CodeBuffer

end ConsoleScript
