import ConsoleScript.Listing.Basic
import ConsoleScript.Outcome
import ConsoleScript.Text.Numeral

/-!
# Decoding a code section

A code section is read instruction by instruction. A string ends at its first
zero, as the machine reads it.
-/

namespace ConsoleScript

/-- Why a byte string is no code section. -/
inductive DecodeError where
  /-- A byte in the place of an opcode names none. -/
  | unknownOpcode (offset : Nat) (byte : UInt8)
  /-- The code ends inside a field of fixed size of the instruction at the offset. -/
  | truncated (offset : Nat) (opcode : Opcode)
  /-- No zero follows the string that starts at the offset. -/
  | unterminatedString (offset : Nat)
deriving DecidableEq, Repr

/-- The text of a decoding error. -/
def DecodeError.message : DecodeError → String
  | unknownOpcode offset byte =>
    "Unknown opcode 0x" ++ Text.hex .upper 2 byte.toNat ++ s!" at offset {offset}"
  | truncated offset opcode =>
    "Truncated " ++ opcode.name ++ s!" instruction at offset {offset}"
  | unterminatedString offset => s!"Unterminated string operand at offset {offset}"

namespace Listing

/-- Reads one operand field at a position inside the instruction that starts at
`start`. -/
def readOperand (start position : Nat) (opcode : Opcode) :
    OperandKind → Bytes → Except DecodeError (Operand × Bytes)
  | .byte, b :: s => .ok (.byte b, s)
  | .byte, [] => .error (.truncated start opcode)
  | .string, s =>
    match s.dropWhile (· != 0) with
    | _ :: rest => .ok (.string (s.takeWhile (· != 0)), rest)
    | [] => .error (.unterminatedString position)
  | .relative, low :: high :: s => .ok (.relative (Bytes.toInt16 low high), s)
  | .relative, _ => .error (.truncated start opcode)

/-- Reads operand fields of the given kinds one behind the other. -/
def readOperands (start position : Nat) (opcode : Opcode) :
    List OperandKind → Bytes → Except DecodeError (List Operand × Bytes)
  | [], s => .ok ([], s)
  | kind :: kinds, s => do
    let (o, rest) ← readOperand start position opcode kind s
    let (operands, rest) ← readOperands start (position + o.size) opcode kinds rest
    return (o :: operands, rest)

/-- Reads the instruction whose opcode's byte is `b`. -/
def readInstruction (start : Nat) (b : UInt8) (s : Bytes) :
    Except DecodeError (Instruction × Bytes) :=
  match Opcode.ofByte? b with
  | none => .error (.unknownOpcode start b)
  | some opcode => do
    let (operands, rest) ← readOperands start (start + 1) opcode opcode.operandKinds s
    return (⟨opcode, operands⟩, rest)

variable {start position : Nat} {opcode : Opcode} {s rest : Bytes} {b : UInt8}

theorem readOperand_eq_append {kind : OperandKind} {o : Operand}
    (h : readOperand start position opcode kind s = .ok (o, rest)) : s = o.encode ++ rest := by
  unfold readOperand at h
  split at h
  case h_1 => cases h; rfl
  case h_3 =>
    split at h
    case h_1 z rest' hs =>
      cases h
      have hz := List.head?_dropWhile_not (· != 0) s
      rw [hs] at hz
      have hz : z = 0 := by simpa using hz
      have hsplit := List.takeWhile_append_dropWhile (p := (· != 0)) (l := s)
      rw [hs, hz] at hsplit
      simpa [Operand.encode] using hsplit.symm
    case h_2 => cases h
  case h_4 => cases h; simp [Operand.encode, Bytes.ofInt16_toInt16]
  all_goals cases h

theorem readOperands_eq_append {kinds : List OperandKind} {operands : List Operand}
    (h : readOperands start position opcode kinds s = .ok (operands, rest)) :
    s = operands.flatMap Operand.encode ++ rest := by
  induction kinds generalizing position s operands with
  | nil =>
      cases h
      rfl
  | cons kind kinds ih =>
      obtain ⟨⟨o, rest₁⟩, hfirst, h⟩ := bind_eq_ok_iff.mp h
      obtain ⟨⟨operands', rest₂⟩, hnext, h⟩ := bind_eq_ok_iff.mp h
      cases h
      rw [readOperand_eq_append hfirst, ih hnext]
      simp

/-- What was read, followed by the rest, is what was given. -/
theorem readInstruction_eq_append {i : Instruction}
    (h : readInstruction start b s = .ok (i, rest)) : b :: s = i.encode ++ rest := by
  unfold readInstruction at h
  split at h
  case h_1 => cases h
  case h_2 opcode hop =>
    obtain ⟨⟨operands, rest'⟩, hoperands, h⟩ := bind_eq_ok_iff.mp h
    cases h
    rw [readOperands_eq_append hoperands, Opcode.ofByte?_eq_some_iff.mp hop]
    simp [Instruction.encode]

theorem length_lt_of_readInstruction {i : Instruction}
    (h : readInstruction start b s = .ok (i, rest)) : rest.length < (b :: s).length := by
  rw [readInstruction_eq_append h, List.length_append]
  exact Nat.lt_add_of_pos_left i.size_pos

/-- Reads the instructions from an offset on, behind those already read. -/
def readEntries (offset : Nat) (done : Array Entry) : Bytes → Except DecodeError (Array Entry)
  | [] => .ok done
  | b :: s =>
    match _h : readInstruction offset b s with
    | .error e => .error e
    | .ok (i, rest) => readEntries (offset + i.size) (done.push (.place offset i)) rest
termination_by code => code.length
decreasing_by exact length_lt_of_readInstruction _h

theorem readEntries_cons_of_ok {done : Array Entry} {i : Instruction}
    (h : readInstruction start b s = .ok (i, rest)) :
    readEntries start done (b :: s) =
      readEntries (start + i.size) (done.push (.place start i)) rest := by
  rw [readEntries]
  split
  case h_1 h' => cases h'.symm.trans h
  case h_2 h' =>
    cases h'.symm.trans h
    rfl

theorem readEntries_cons_of_error {done : Array Entry} {e : DecodeError}
    (h : readInstruction start b s = .error e) : readEntries start done (b :: s) = .error e := by
  rw [readEntries]
  split
  case h_1 h' =>
    cases h'.symm.trans h
    rfl
  case h_2 h' => cases h'.symm.trans h

/-- The listing of a code section. -/
def decode (code : Bytes) : Except DecodeError Listing := do
  let entries ← readEntries 0 #[] code
  return ofEntries entries.toList code.length

end Listing

end ConsoleScript
