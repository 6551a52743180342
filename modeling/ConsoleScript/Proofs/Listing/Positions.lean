import ConsoleScript.Listing.Decode
import Mathlib.Data.List.TakeWhile
import Mathlib.Order.Basic

/-!
# Decoding by positions

A code section can be decoded without cutting it up: a position moves over the bytes, and
each byte is looked up where it stands. Here that is written down with every look-up that
has to be inside the code as one that may fail. None does, and the listing or the error is
that of `Listing.decode`.

## Implementation notes

Both decoders are compared step by step. `Lookup.Follows` says that one has come to the
position behind which the other has the rest of the code; it is closed under bind.
-/

namespace ConsoleScript.Listing

/-! ### The decoder -/

/-- A step that looks bytes up by their positions: `none` is a look outside the bytes. -/
abbrev Lookup := ExceptT DecodeError Option

/-- The bytes between two positions. -/
def slice? (code : Bytes) (first stop : Nat) : Option Bytes :=
  if first ≤ stop ∧ stop ≤ code.length then some ((code.drop first).take (stop - first)) else none

/-- Reads one operand field at a position. Bytes of a fixed field may be missing; the bytes
behind the position and those in front of a zero have to be there. -/
def operandAt (code : Bytes) (start position : Nat) (opcode : Opcode) :
    OperandKind → Lookup (Operand × Nat)
  | .byte =>
    match code[position]? with
    | some b => return (.byte b, position + 1)
    | none => throw (.truncated start opcode)
  | .string => do
    let rest ← slice? code position code.length
    match rest.findIdx? (· == 0) with
    | some length =>
      let text ← slice? rest 0 length
      return (.string text, position + length + 1)
    | none => throw (.unterminatedString position)
  | .relative =>
    match slice? code position (position + 2) with
    | some [low, high] => return (.relative (Bytes.toInt16 low high), position + 2)
    | some _ => (none : Option (Except DecodeError _))
    | none => throw (.truncated start opcode)

/-- Reads operand fields of the given kinds from a position on. -/
def operandsAt (code : Bytes) (start position : Nat) (opcode : Opcode) :
    List OperandKind → Lookup (List Operand × Nat)
  | [] => return ([], position)
  | kind :: kinds => do
    let (o, position) ← operandAt code start position opcode kind
    let (operands, position) ← operandsAt code start position opcode kinds
    return (o :: operands, position)

/-- Reads the instruction at a position. -/
def instructionAt (code : Bytes) (start : Nat) : Lookup (Instruction × Nat) := do
  let b ← (code[start]? : Option UInt8)
  match Opcode.ofByte? b with
  | none => throw (.unknownOpcode start b)
  | some opcode =>
    let (operands, stop) ← operandsAt code start (start + 1) opcode opcode.operandKinds
    return (⟨opcode, operands⟩, stop)

/-! ### Comparing the decoders -/

/-- The step has come to the position behind which the other one has the rest. -/
inductive Lookup.Follows {α : Type} (code : Bytes) :
    Lookup (α × Nat) → Except DecodeError (α × Bytes) → Prop
  | ok {a : α} {position : Nat} (h : position ≤ code.length) :
      Follows code (some (.ok (a, position))) (.ok (a, code.drop position))
  | error {e : DecodeError} : Follows code (some (.error e)) (.error e)

variable {α β : Type} {code s : Bytes} {start position length : Nat} {opcode : Opcode}

theorem Lookup.Follows.bind {x : Lookup (α × Nat)} {y : Except DecodeError (α × Bytes)}
    {f : α × Nat → Lookup (β × Nat)} {g : α × Bytes → Except DecodeError (β × Bytes)}
    (h : Follows code x y)
    (hnext : ∀ a position, position ≤ code.length → y = .ok (a, code.drop position) →
      Follows code (f (a, position)) (g (a, code.drop position))) :
    Follows code (x >>= f) (y >>= g) := by
  cases h with
  | ok hposition => exact hnext _ _ hposition rfl
  | error => exact .error

theorem Lookup.Follows.eq_ok {a : α} {y : Except DecodeError (α × Bytes)}
    (h : Follows code (some (.ok (a, position))) y) :
    y = .ok (a, code.drop position) ∧ position ≤ code.length := by
  cases h with
  | ok hposition => exact ⟨rfl, hposition⟩

theorem Lookup.Follows.eq_error {e : DecodeError} {y : Except DecodeError (α × Bytes)}
    (h : Follows code (some (.error e)) y) : y = .error e := by
  cases h with
  | error => rfl

theorem Lookup.lift_some_bind {a : α} {f : α → Lookup β} :
    (liftM (some a) : Lookup α) >>= f = f a := rfl

theorem slice?_of_le {first stop : Nat} (hfirst : first ≤ stop) (hstop : stop ≤ code.length) :
    slice? code first stop = some ((code.drop first).take (stop - first)) :=
  if_pos ⟨hfirst, hstop⟩

/-- A string is read up to the first zero. -/
theorem readOperand_string_of_findIdx? (h : s.findIdx? (· == 0) = some length) :
    readOperand start position opcode .string s =
      .ok (.string (s.take length), s.drop (length + 1)) := by
  obtain ⟨hlt, hindex⟩ := List.findIdx?_eq_some_iff_findIdx_eq.mp h
  have hnot : s.findIdx (fun b => !(b != 0)) = length := by simpa [bne] using hindex
  have htext : s.takeWhile (· != 0) = s.take length := by
    rw [List.takeWhile_eq_take_findIdx_not, hnot]
  have hrest : s.dropWhile (· != 0) = s[length] :: s.drop (length + 1) := by
    rw [List.dropWhile_eq_drop_findIdx_not, hnot, List.drop_eq_getElem_cons hlt]
  rw [readOperand, hrest, htext]

/-- A string that no zero follows is not read. -/
theorem readOperand_string_of_findIdx?_eq_none (h : s.findIdx? (· == 0) = none) :
    readOperand start position opcode .string s = .error (.unterminatedString position) := by
  have hrest : s.dropWhile (· != 0) = [] := by
    rw [List.dropWhile_eq_nil_iff]
    intro b hb
    simpa [bne] using List.findIdx?_eq_none_iff.mp h b hb
  rw [readOperand, hrest]

theorem operandAt_follows (kind : OperandKind) (h : position ≤ code.length) :
    Lookup.Follows code (operandAt code start position opcode kind)
      (readOperand start position opcode kind (code.drop position)) := by
  have hlength : (code.drop position).length = code.length - position := List.length_drop
  cases kind with
  | byte =>
      rw [operandAt, ← List.head?_drop]
      cases hs : code.drop position with
      | nil => exact .error
      | cons b s =>
          have hrest : s = code.drop (position + 1) := by rw [← List.tail_drop, hs]; rfl
          rw [hs, List.length_cons] at hlength
          rw [hrest]
          exact .ok (by omega)
  | string =>
      have hsuffix : slice? code position code.length = some (code.drop position) := by
        rw [slice?_of_le h le_rfl, List.take_of_length_le hlength.le]
      rw [operandAt, hsuffix, Lookup.lift_some_bind]
      cases hindex : (code.drop position).findIdx? (· == 0) with
      | none =>
          rw [readOperand_string_of_findIdx?_eq_none hindex]
          exact .error
      | some length =>
          have hlt := (List.findIdx?_eq_some_iff_findIdx_eq.mp hindex).1
          rw [readOperand_string_of_findIdx? hindex, List.drop_drop]
          simp only [slice?_of_le (Nat.zero_le _) hlt.le, Lookup.lift_some_bind]
          exact .ok (by omega)
  | relative =>
      rw [operandAt]
      by_cases hroom : position + 2 ≤ code.length
      · rw [slice?_of_le (by omega) hroom]
        obtain ⟨low, high, rest, hs⟩ : ∃ low high rest, code.drop position = low :: high :: rest := by
          match hs : code.drop position with
          | low :: high :: rest => exact ⟨low, high, rest, rfl⟩
          | [_] | [] => simp [hs] at hlength; omega
        have hrest : rest = code.drop (position + 2) := by rw [← List.drop_drop, hs]; rfl
        have hwidth : position + 2 - position = 2 := by omega
        rw [hs, hwidth, hrest]
        exact .ok hroom
      · have hnone : slice? code position (position + 2) = none := if_neg (by omega)
        rw [hnone]
        match hs : code.drop position with
        | low :: high :: rest => simp [hs] at hlength; omega
        | [_] | [] => exact .error

/-- The position behind a field is that in front of it and the size of the field. -/
theorem add_size_eq_of_readOperand {kind : OperandKind} {o : Operand} {stop : Nat}
    (h : position ≤ code.length) (hstop : stop ≤ code.length)
    (ho : readOperand start position opcode kind (code.drop position) =
      .ok (o, code.drop stop)) :
    position + o.size = stop := by
  have hlengths := congrArg List.length (readOperand_eq_append ho)
  rw [List.length_append, List.length_drop, List.length_drop] at hlengths
  have hsize : o.encode.length = o.size := rfl
  omega

theorem operandsAt_follows (kinds : List OperandKind) (h : position ≤ code.length) :
    Lookup.Follows code (operandsAt code start position opcode kinds)
      (readOperands start position opcode kinds (code.drop position)) := by
  induction kinds generalizing position with
  | nil => exact .ok h
  | cons kind kinds ih =>
      apply (operandAt_follows kind h).bind
      intro o next hnext ho
      obtain rfl := add_size_eq_of_readOperand h hnext ho
      apply (ih hnext).bind
      intro operands stop hstop _
      exact .ok hstop

theorem instructionAt_follows (h : start < code.length) :
    Lookup.Follows code (instructionAt code start)
      (readInstruction start code[start] (code.drop (start + 1))) := by
  rw [instructionAt, List.getElem?_eq_getElem h, Lookup.lift_some_bind, readInstruction]
  cases Opcode.ofByte? code[start] with
  | none => exact .error
  | some opcode =>
      apply (operandsAt_follows opcode.operandKinds h).bind
      intro operands stop hstop _
      exact .ok hstop

/-- The position behind an instruction is that in front of it and its size. -/
theorem stop_of_instructionAt {i : Instruction} {stop : Nat} (h : start < code.length)
    (hi : instructionAt code start = some (.ok (i, stop))) :
    stop = start + i.size ∧ stop ≤ code.length := by
  have hfollows := instructionAt_follows h
  rw [hi] at hfollows
  obtain ⟨hread, hstop⟩ := hfollows.eq_ok
  have hlengths := congrArg List.length (readInstruction_eq_append hread)
  rw [← List.drop_eq_getElem_cons h, List.length_append, List.length_drop, List.length_drop]
    at hlengths
  have hsize : i.encode.length = i.size := rfl
  omega

/-! ### The code section -/

/-- Reads the instructions from a position on, behind those already read. -/
def entriesAt (code : Bytes) (position : Nat) (done : Array Entry) : Lookup (Array Entry) :=
  if _h : position < code.length then
    match _hi : instructionAt code position with
    | none => none
    | some (.error e) => some (.error e)
    | some (.ok (i, stop)) =>
      entriesAt code stop
        (done.push { toInstruction := i, offset := position, size := stop - position })
  else
    return done
termination_by code.length - position
decreasing_by
  have hstop := stop_of_instructionAt _h _hi
  have hpos := i.size_pos
  omega

/-- The listing of a code section, decoded by positions. -/
def decodeAt (code : Bytes) : Lookup Listing := do
  let entries ← entriesAt code 0 #[]
  return ofEntries entries.toList code.length

theorem entriesAt_eq_some_readEntries {done : Array Entry} (h : position ≤ code.length) :
    entriesAt code position done = some (readEntries position done (code.drop position)) := by
  fun_induction entriesAt code position done with
  | case1 position done hlt hi =>
      have hfollows := instructionAt_follows hlt
      rw [hi] at hfollows
      cases hfollows
  | case2 position done hlt e hi =>
      have hfollows := instructionAt_follows hlt
      rw [hi] at hfollows
      rw [List.drop_eq_getElem_cons hlt, readEntries_cons_of_error hfollows.eq_error]
  | case3 position done hlt i stop hi ih =>
      have hfollows := instructionAt_follows hlt
      rw [hi] at hfollows
      obtain ⟨hread, hle⟩ := hfollows.eq_ok
      obtain ⟨hstop, -⟩ := stop_of_instructionAt hlt hi
      have hsize : stop - position = i.size := by omega
      rw [ih hle, List.drop_eq_getElem_cons hlt, readEntries_cons_of_ok hread, ← hstop, hsize]
      rfl
  | case4 position done hle =>
      rw [List.drop_eq_nil_of_le (Nat.le_of_not_lt hle), readEntries]
      rfl

/-- Decoding by positions never looks outside the code, and gives what decoding gives. -/
theorem decodeAt_eq_some_decode (code : Bytes) : decodeAt code = some (decode code) := by
  rw [decodeAt, entriesAt_eq_some_readEntries (Nat.zero_le _), List.drop_zero, decode]
  cases readEntries 0 #[] code <;> rfl

end ConsoleScript.Listing
