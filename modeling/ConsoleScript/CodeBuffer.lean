import ConsoleScript.Instruction.Basic

/-!
# Code buffers

A code buffer grows at its end and lets a 16-bit field that it already holds
be overwritten. It remembers the opcode of its last instruction, so an operand
byte that looks like an exit is never taken for one.
-/

namespace ConsoleScript

/-- A code section under construction. -/
structure CodeBuffer where
  bytes : Array UInt8 := #[]
  lastOpcode : Option Opcode := none
deriving DecidableEq, Repr

namespace CodeBuffer

/-- The content of the buffer. -/
def toList (c : CodeBuffer) : Bytes := c.bytes.toList

/-- The number of bytes in the buffer. -/
def size (c : CodeBuffer) : Nat := c.bytes.size

/-- Whether the buffer holds no byte. -/
def isEmpty (c : CodeBuffer) : Bool := c.bytes.isEmpty

/-- Whether the last instruction ends the program. -/
def endsWithExit (c : CodeBuffer) : Bool := c.lastOpcode == some .exit

/-- Adds one byte that starts no instruction. -/
def push (c : CodeBuffer) (b : UInt8) : CodeBuffer :=
  { c with bytes := c.bytes.push b }

/-- Adds bytes that start no instruction. -/
def pushBytes (c : CodeBuffer) (s : Bytes) : CodeBuffer :=
  { c with bytes := c.bytes ++ s }

/-- Adds a string and its terminating zero; zeros inside the string are kept. -/
def pushString (c : CodeBuffer) (s : Bytes) : CodeBuffer :=
  (c.pushBytes s).push 0

/-- Adds a signed 16-bit field. -/
def pushInt16 (c : CodeBuffer) (n : Int16) : CodeBuffer :=
  c.pushBytes (Bytes.ofInt16 n)

/-- Starts an instruction. -/
def pushOpcode (c : CodeBuffer) (op : Opcode) : CodeBuffer :=
  { bytes := c.bytes.push op.toByte, lastOpcode := some op }

/-- Adds an operand field. -/
def pushOperand (c : CodeBuffer) : Operand → CodeBuffer
  | .byte b => c.push b
  | .string s => c.pushString s
  | .relative n => c.pushInt16 n

/-- Adds a whole instruction. -/
def emit (c : CodeBuffer) (i : Instruction) : CodeBuffer :=
  i.operands.foldl pushOperand (c.pushOpcode i.opcode)

/-- Adds the content of another buffer, with its last instruction if it has one. -/
def append (c d : CodeBuffer) : CodeBuffer where
  bytes := c.bytes ++ d.bytes
  lastOpcode := d.lastOpcode <|> c.lastOpcode

instance : Append CodeBuffer := ⟨append⟩

/-- The 16-bit field at an offset lies inside the buffer. -/
def HasField (c : CodeBuffer) (offset : Nat) : Prop := offset + 2 ≤ c.size

instance (c : CodeBuffer) (offset : Nat) : Decidable (c.HasField offset) :=
  inferInstanceAs (Decidable (_ ≤ _))

/-- Overwrites the 16-bit field at an offset. Bytes behind the end of the buffer
are not written. -/
def patch (c : CodeBuffer) (offset : Nat) (n : Int16) : CodeBuffer :=
  { c with
    bytes := (Bytes.ofInt16 n).zipIdx.foldl
      (fun bytes (b, i) => bytes.setIfInBounds (offset + i) b) c.bytes }

/-- Overwrites the 16-bit field at an offset, or gives `none` if the field does
not lie inside the buffer. -/
def patch? (c : CodeBuffer) (offset : Nat) (n : Int16) : Option CodeBuffer :=
  if c.HasField offset then some (c.patch offset n) else none

variable {c d : CodeBuffer} {s : Bytes} {b : UInt8} {n : Int16} {op : Opcode}

/-! ### Content -/

@[simp] theorem length_toList : c.toList.length = c.size := by
  simp [toList, size]

@[simp] theorem toList_empty : ({} : CodeBuffer).toList = [] := rfl

@[simp] theorem toList_push : (c.push b).toList = c.toList ++ [b] := by
  simp [toList, push]

@[simp] theorem toList_pushBytes : (c.pushBytes s).toList = c.toList ++ s := by
  simp [toList, pushBytes]

@[simp] theorem toList_pushString : (c.pushString s).toList = c.toList ++ (s ++ [0]) := by
  simp [pushString]

@[simp] theorem toList_pushInt16 : (c.pushInt16 n).toList = c.toList ++ Bytes.ofInt16 n := by
  simp [pushInt16]

@[simp] theorem toList_pushOpcode : (c.pushOpcode op).toList = c.toList ++ [op.toByte] := by
  simp [toList, pushOpcode]

@[simp] theorem toList_pushOperand {o : Operand} :
    (c.pushOperand o).toList = c.toList ++ o.encode := by
  cases o <;> simp [pushOperand, Operand.encode]

@[simp] theorem toList_append : (c ++ d).toList = c.toList ++ d.toList := by
  show (c.append d).toList = _
  simp [toList, append]

theorem toList_foldl_pushOperand (operands : List Operand) (c : CodeBuffer) :
    (operands.foldl pushOperand c).toList = c.toList ++ operands.flatMap Operand.encode := by
  induction operands generalizing c with
  | nil => simp
  | cons o operands ih => simp [ih]

@[simp] theorem toList_emit {i : Instruction} : (c.emit i).toList = c.toList ++ i.encode := by
  simp [emit, toList_foldl_pushOperand, Instruction.encode]

/-! ### Last opcode -/

@[simp] theorem lastOpcode_pushBytes : (c.pushBytes s).lastOpcode = c.lastOpcode := rfl

@[simp] theorem lastOpcode_pushOpcode : (c.pushOpcode op).lastOpcode = some op := rfl

@[simp] theorem lastOpcode_pushOperand {o : Operand} :
    (c.pushOperand o).lastOpcode = c.lastOpcode := by
  cases o <;> rfl

@[simp] theorem lastOpcode_append :
    (c ++ d).lastOpcode = (d.lastOpcode <|> c.lastOpcode) := rfl

theorem lastOpcode_foldl_pushOperand (operands : List Operand) (c : CodeBuffer) :
    (operands.foldl pushOperand c).lastOpcode = c.lastOpcode := by
  induction operands generalizing c with
  | nil => rfl
  | cons o operands ih => simp [ih]

@[simp] theorem lastOpcode_emit {i : Instruction} : (c.emit i).lastOpcode = some i.opcode := by
  simp [emit, lastOpcode_foldl_pushOperand]

/-! ### Patched fields -/

theorem patch?_eq_some_iff {offset : Nat} :
    c.patch? offset n = some d ↔ c.HasField offset ∧ d = c.patch offset n := by
  unfold patch?
  split <;> simp_all [eq_comm]

@[simp] theorem lastOpcode_patch {offset : Nat} :
    (c.patch offset n).lastOpcode = c.lastOpcode := rfl

@[simp] theorem size_patch {offset : Nat} : (c.patch offset n).size = c.size := by
  obtain ⟨low, high, hfield, -⟩ := Bytes.toInt16_ofInt16 n
  simp [patch, size, hfield]

/-- Patching keeps all bytes outside the field. -/
theorem toList_patch {offset : Nat} (h : c.HasField offset) :
    (c.patch offset n).toList =
      c.toList.take offset ++ Bytes.ofInt16 n ++ c.toList.drop (offset + 2) := by
  obtain ⟨low, high, hfield, -⟩ := Bytes.toInt16_ofInt16 n
  have hlen : offset + 2 ≤ c.bytes.toList.length := by simpa [HasField, size] using h
  apply List.ext_getElem?
  intro k
  simp only [patch, hfield, toList, List.zipIdx_cons, List.zipIdx_nil, List.foldl_cons,
    List.foldl_nil, Array.toList_setIfInBounds, List.getElem?_set, List.getElem?_append,
    List.getElem?_take, List.getElem?_drop, List.length_append, List.length_take,
    List.length_set, List.length_cons, List.length_nil]
  rw [Nat.min_eq_left (by omega : offset ≤ c.bytes.toList.length)]
  by_cases h₁ : k < offset
  · rw [if_neg (by omega), if_neg (by omega), if_pos (by omega), if_pos h₁, if_pos h₁]
  · by_cases h₂ : k = offset
    · subst h₂
      have hk : k < c.bytes.size := by simpa using (by omega : k < c.bytes.toList.length)
      simp [hk]
    · by_cases h₃ : k = offset + 1
      · subst h₃
        have hk : offset + 1 < c.bytes.size := by
          simpa using (by omega : offset + 1 < c.bytes.toList.length)
        simp [hk, h₁]
      · rw [if_neg (by omega), if_neg (by omega), if_neg (by omega)]
        congr 1
        omega

end CodeBuffer

end ConsoleScript
