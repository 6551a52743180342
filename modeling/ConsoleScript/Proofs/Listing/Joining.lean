import ConsoleScript.Proofs.Listing.Codec

/-!
# Listings of joined code sections

Decoding goes on behind a code section that has a listing as it would start at the front.
So the listing of joined code sections is made of both listings, and an error in the second
one is found at its place there.
-/

namespace ConsoleScript

open Instruction

/-- The error in code that stands further behind. -/
def DecodeError.shift (distance : Nat) : DecodeError → DecodeError
  | unknownOpcode offset byte => unknownOpcode (distance + offset) byte
  | truncated offset opcode => truncated (distance + offset) opcode
  | unterminatedString offset => unterminatedString (distance + offset)

namespace Listing

/-- The entry in code that stands further behind. -/
def Entry.shift (distance : Nat) (e : Entry) : Entry := { e with offset := distance + e.offset }

/-- The listing of two code sections, the second one behind the first. -/
def append (l m : Listing) : Listing :=
  ofEntries (l.entries ++ m.entries.map (Entry.shift l.codeLength)) (l.codeLength + m.codeLength)

variable {distance start position offset index : Nat} {opcode : Opcode} {a b code s : Bytes}
  {is js : List Instruction} {e : DecodeError} {l m : Listing}

/-! ### Reading at a later place -/

theorem readOperand_shift (kind : OperandKind) :
    readOperand (distance + start) (distance + position) opcode kind s =
      (readOperand start position opcode kind s).mapError (DecodeError.shift distance) := by
  cases kind with
  | byte => cases s <;> rfl
  | string =>
      rw [readOperand, readOperand]
      cases s.dropWhile (· != 0) <;> rfl
  | relative =>
      cases s with
      | nil => rfl
      | cons low s => cases s <;> rfl

theorem readOperands_shift (kinds : List OperandKind) :
    readOperands (distance + start) (distance + position) opcode kinds s =
      (readOperands start position opcode kinds s).mapError (DecodeError.shift distance) := by
  induction kinds generalizing position s with
  | nil => rfl
  | cons kind kinds ih =>
      rw [readOperands, readOperands, readOperand_shift]
      cases readOperand start position opcode kind s with
      | error e => rfl
      | ok read =>
          obtain ⟨o, rest⟩ := read
          simp only [Except.mapError, bind, Except.bind]
          rw [Nat.add_assoc, ih]
          cases readOperands start (position + o.size) opcode kinds rest <;> rfl

/-- An instruction that stands further behind is read as it is, and an error is found
further behind. -/
theorem readInstruction_shift (byte : UInt8) :
    readInstruction (distance + start) byte s =
      (readInstruction start byte s).mapError (DecodeError.shift distance) := by
  rw [readInstruction, readInstruction]
  cases Opcode.ofByte? byte with
  | none => rfl
  | some opcode =>
      simp only
      rw [Nat.add_assoc, readOperands_shift]
      cases readOperands start (start + 1) opcode opcode.operandKinds s <;> rfl

theorem layout_shift :
    layout (distance + offset) is = (layout offset is).map (Entry.shift distance) := by
  induction is generalizing offset with
  | nil => rfl
  | cons i is ih =>
      rw [layout_cons, layout_cons, List.map_cons, ← ih, Nat.add_assoc]
      rfl

/-! ### Joined code sections -/

/-- Reading fails where it comes to an instruction that cannot be read, behind others that
can. -/
theorem readEntries_eq_error_iff {done : Array Entry} :
    readEntries offset done code = .error e ↔
      ∃ is byte s, (∀ i ∈ is, i.WellFormed) ∧ code = encodeAll is ++ byte :: s ∧
        readInstruction (offset + (encodeAll is).length) byte s = .error e := by
  constructor
  · intro h
    fun_induction readEntries offset done code with
    | case1 => cases h
    | case2 offset done byte s e' hread =>
        cases h
        exact ⟨[], byte, s, by simp, rfl, hread⟩
    | case3 offset done byte s i rest hread ih =>
        obtain ⟨hi, hs⟩ := readInstruction_eq_ok_iff.mp hread
        obtain ⟨is, byte', s', his, rfl, herror⟩ := ih h
        refine ⟨i :: is, byte', s', List.forall_mem_cons.mpr ⟨hi, his⟩, ?_, ?_⟩
        · rw [hs, encodeAll_cons, List.append_assoc]
        · rw [encodeAll_cons, List.length_append, length_encode, ← Nat.add_assoc]
          exact herror
  · rintro ⟨is, byte, s, his, rfl, herror⟩
    induction is generalizing offset done with
    | nil => exact readEntries_cons_of_error herror
    | cons i is ih =>
        obtain ⟨hi, his⟩ := List.forall_mem_cons.mp his
        rw [encodeAll_cons, List.length_append, length_encode, ← Nat.add_assoc] at herror
        rw [encodeAll_cons, List.append_assoc, readEntries_encode_append hi]
        exact ih his herror

/-- A code section has no listing exactly if it goes on behind the code of well-formed
instructions with something that is none. -/
theorem decode_eq_error_iff :
    decode code = .error e ↔
      ∃ is byte s, (∀ i ∈ is, i.WellFormed) ∧ code = encodeAll is ++ byte :: s ∧
        readInstruction (encodeAll is).length byte s = .error e := by
  have hentries : decode code = .error e ↔ readEntries 0 #[] code = .error e := by
    rw [decode, bind_eq_error_iff]
    constructor
    · rintro (h | ⟨entries, -, h⟩)
      · exact h
      · cases h
    · exact .inl
  rw [hentries, readEntries_eq_error_iff]
  simp only [Nat.zero_add]

/-- The listing of joined code sections is made of both listings. -/
theorem decode_append_of_ok (ha : decode a = .ok l) (hb : decode b = .ok m) :
    decode (a ++ b) = .ok (l.append m) := by
  obtain ⟨is, his, rfl, rfl⟩ := decode_eq_ok_iff_encodeAll.mp ha
  obtain ⟨js, hjs, rfl, rfl⟩ := decode_eq_ok_iff_encodeAll.mp hb
  apply decode_eq_ok_iff_encodeAll.mpr
  refine ⟨is ++ js, List.forall_mem_append.mpr ⟨his, hjs⟩, (encodeAll_append _ _).symm, ?_⟩
  have hbehind : layout (0 + (encodeAll is).length) js =
      (layout 0 js).map (Entry.shift (encodeAll is).length) := by
    rw [← layout_shift, Nat.add_comm]
  rw [layout_append, hbehind, List.length_append]
  rfl

/-- An error behind a code section that has a listing is found at its place there. -/
theorem decode_append_of_error (ha : decode a = .ok l) (hb : decode b = .error e) :
    decode (a ++ b) = .error (e.shift a.length) := by
  obtain ⟨is, his, rfl, rfl⟩ := decode_eq_ok_iff_encodeAll.mp ha
  obtain ⟨js, byte, s, hjs, rfl, herror⟩ := decode_eq_error_iff.mp hb
  apply decode_eq_error_iff.mpr
  refine ⟨is ++ js, byte, s, List.forall_mem_append.mpr ⟨his, hjs⟩, ?_, ?_⟩
  · rw [encodeAll_append, List.append_assoc]
  · rw [encodeAll_append, List.length_append, readInstruction_shift, herror]
    rfl

/-- An entry of joined listings is one of the first, or one of the second further behind. -/
theorem getElem?_entries_append :
    (∃ e, (l.append m).entries[index]? = some e ∧ e.offset = offset) ↔
      (∃ e, l.entries[index]? = some e ∧ e.offset = offset) ∨
        ∃ offset' index', offset = l.codeLength + offset' ∧ index = l.entries.length + index' ∧
          ∃ e, m.entries[index']? = some e ∧ e.offset = offset' := by
  have hentries : (l.append m).entries =
      l.entries ++ m.entries.map (Entry.shift l.codeLength) := rfl
  rw [hentries]
  constructor
  · rintro ⟨e, he, rfl⟩
    by_cases hindex : index < l.entries.length
    · rw [List.getElem?_append_left hindex] at he
      exact .inl ⟨e, he, rfl⟩
    · rw [List.getElem?_append_right (Nat.le_of_not_lt hindex), List.getElem?_map] at he
      obtain ⟨f, hf, rfl⟩ := Option.map_eq_some_iff.mp he
      exact .inr ⟨f.offset, index - l.entries.length, rfl, by omega, f, hf, rfl⟩
  · rintro (⟨e, he, rfl⟩ | ⟨offset', index', rfl, rfl, f, hf, rfl⟩)
    · refine ⟨e, ?_, rfl⟩
      rw [List.getElem?_append_left (List.getElem?_eq_some_iff.mp he).1]
      exact he
    · refine ⟨f.shift l.codeLength, ?_, rfl⟩
      rw [List.getElem?_append_right (Nat.le_add_right _ _), Nat.add_sub_cancel_left,
        List.getElem?_map, hf]
      rfl

theorem codeLength_of_decode (h : decode code = .ok l) : l.codeLength = code.length := by
  obtain ⟨is, -, -, rfl⟩ := decode_eq_ok_iff_encodeAll.mp h
  rfl

/-- The map of a decoded listing has the pairs of an entry's offset and its index. -/
theorem getElem?_addressMap (h : decode code = .ok l) :
    l.addressMap[offset]? = some index ↔
      ∃ e, l.entries[index]? = some e ∧ e.offset = offset := by
  obtain ⟨is, -, -, rfl⟩ := decode_eq_ok_iff_encodeAll.mp h
  exact getElem?_addressesOf (pairwise_offset_ne_layout 0 is)

/-- The map of joined listings has the pairs of the first one, and those of the second one
further behind. -/
theorem getElem?_addressMap_append (ha : decode a = .ok l) (hb : decode b = .ok m) :
    (l.append m).addressMap[offset]? = some index ↔
      l.addressMap[offset]? = some index ∨
        ∃ offset' index', offset = l.codeLength + offset' ∧ index = l.entries.length + index' ∧
          m.addressMap[offset']? = some index' := by
  simp only [getElem?_addressMap (decode_append_of_ok ha hb), getElem?_addressMap ha,
    getElem?_addressMap hb]
  exact getElem?_entries_append

end Listing

end ConsoleScript
