import ConsoleScript.Listing.Decode
import ConsoleScript.Proofs.Code.Emission
import Mathlib.Data.List.TakeWhile

/-!
# Layouts of instructions

Instructions that stand one behind the other have their offsets from the sizes of
those in front of them. Decoding reads a code section exactly if it is the code of
well-formed instructions, and gives their layout.

## Implementation notes

Each reader is described by an equivalence: it succeeds with a value exactly where the
value's encoding stands. So both directions go up from fields to code sections at once.
-/

namespace ConsoleScript

open Instruction

namespace Listing

variable {start position offset : Nat} {opcode : Opcode} {s rest code : Bytes} {b : UInt8}
  {is js : List Instruction} {i : Instruction}

/-! ### Fields -/

/-- A field is read exactly where the encoding of an operand of its kind stands. -/
theorem readOperand_eq_ok_iff {kind : OperandKind} {o : Operand} :
    readOperand start position opcode kind s = .ok (o, rest) ↔
      o.kind = kind ∧ o.Delimited ∧ s = o.encode ++ rest := by
  constructor
  · intro h
    have hs := readOperand_eq_append h
    unfold readOperand at h
    split at h
    case h_1 =>
      cases h
      exact ⟨rfl, trivial, hs⟩
    case h_2 => cases h
    case h_3 =>
      split at h
      case h_1 =>
        cases h
        refine ⟨rfl, fun hzero => ?_, hs⟩
        have hne := List.mem_takeWhile_imp hzero
        exact absurd hne (by decide)
      case h_2 => cases h
    case h_4 =>
      cases h
      exact ⟨rfl, trivial, hs⟩
    case h_5 => cases h
  · rintro ⟨rfl, hdelimited, rfl⟩
    cases o with
    | byte b => rfl
    | relative n =>
        obtain ⟨low, high, hfield, hn⟩ := Bytes.toInt16_ofInt16 n
        simp [Operand.kind, Operand.encode, readOperand, hfield, hn]
    | string text =>
        have htext : ∀ b ∈ text, (b != 0) = true := by
          intro b hb
          rw [bne_iff_ne]
          rintro rfl
          exact hdelimited hb
        simp [Operand.kind, Operand.encode, readOperand, List.takeWhile_append_of_pos htext,
          List.dropWhile_append_of_pos htext]

theorem readOperands_eq_ok_iff {kinds : List OperandKind} {operands : List Operand} :
    readOperands start position opcode kinds s = .ok (operands, rest) ↔
      operands.map Operand.kind = kinds ∧ (∀ o ∈ operands, o.Delimited) ∧
        s = operands.flatMap Operand.encode ++ rest := by
  induction kinds generalizing position s operands with
  | nil =>
      constructor
      · intro h
        cases h
        exact ⟨rfl, by simp, rfl⟩
      · rintro ⟨hkinds, -, rfl⟩
        rw [List.map_eq_nil_iff.mp hkinds]
        rfl
  | cons kind kinds ih =>
      rw [readOperands, bind_eq_ok_iff]
      constructor
      · rintro ⟨⟨o, t⟩, ho, h⟩
        obtain ⟨⟨operands, u⟩, hoperands, h⟩ := bind_eq_ok_iff.mp h
        cases h
        obtain ⟨rfl, hdelimited, rfl⟩ := readOperand_eq_ok_iff.mp ho
        obtain ⟨rfl, hlater, rfl⟩ := ih.mp hoperands
        exact ⟨rfl, List.forall_mem_cons.mpr ⟨hdelimited, hlater⟩, by simp⟩
      · rintro ⟨hkinds, hdelimited, rfl⟩
        obtain ⟨o, operands, rfl, rfl, hlaterKinds⟩ := List.map_eq_cons_iff.mp hkinds
        obtain ⟨ho, hlater⟩ := List.forall_mem_cons.mp hdelimited
        refine ⟨(o, operands.flatMap Operand.encode ++ rest), ?_, ?_⟩
        · apply readOperand_eq_ok_iff.mpr
          exact ⟨rfl, ho, by simp⟩
        · apply bind_eq_ok_iff.mpr
          exact ⟨(operands, rest), ih.mpr ⟨hlaterKinds, hlater, rfl⟩, rfl⟩

/-- An instruction is read exactly where the encoding of a well-formed one stands. -/
theorem readInstruction_eq_ok_iff :
    readInstruction start b s = .ok (i, rest) ↔ i.WellFormed ∧ b :: s = i.encode ++ rest := by
  constructor
  · intro h
    refine ⟨?_, readInstruction_eq_append h⟩
    unfold readInstruction at h
    split at h
    case h_1 => cases h
    case h_2 opcode hop =>
      obtain ⟨⟨operands, t⟩, hoperands, h⟩ := bind_eq_ok_iff.mp h
      cases h
      obtain ⟨hkinds, hdelimited, -⟩ := readOperands_eq_ok_iff.mp hoperands
      exact ⟨hkinds, hdelimited⟩
  · rintro ⟨⟨hkinds, hdelimited⟩, h⟩
    obtain ⟨rfl, rfl⟩ := List.cons.inj h
    rw [readInstruction, Opcode.ofByte?_toByte]
    apply bind_eq_ok_iff.mpr
    exact ⟨(i.operands, rest), readOperands_eq_ok_iff.mpr ⟨hkinds, hdelimited, rfl⟩, rfl⟩

/-! ### Layouts -/

/-- The instructions at their places from an offset on. -/
def layout : Nat → List Instruction → List Entry
  | _, [] => []
  | offset, i :: is => .place offset i :: layout (offset + i.size) is

@[simp] theorem layout_nil : layout offset [] = [] := rfl

@[simp] theorem layout_cons :
    layout offset (i :: is) = .place offset i :: layout (offset + i.size) is := rfl

@[simp] theorem map_toInstruction_layout (offset : Nat) (is : List Instruction) :
    (layout offset is).map Entry.toInstruction = is := by
  induction is generalizing offset with
  | nil => rfl
  | cons i is ih => rw [layout_cons, List.map_cons, ih, Entry.toInstruction_place]

theorem layout_append :
    layout offset (is ++ js) =
      layout offset is ++ layout (offset + (encodeAll is).length) js := by
  induction is generalizing offset with
  | nil => rfl
  | cons i is ih =>
      have hstop : offset + i.size + (encodeAll is).length =
          offset + (encodeAll (i :: is)).length := by
        rw [encodeAll_cons, List.length_append, length_encode, Nat.add_assoc]
      calc
        layout offset (i :: is ++ js) = .place offset i :: layout (offset + i.size) (is ++ js) :=
          layout_cons
        _ = .place offset i :: (layout (offset + i.size) is ++
            layout (offset + (encodeAll (i :: is)).length) js) := by rw [ih, hstop]
        _ = layout offset (i :: is) ++ layout (offset + (encodeAll (i :: is)).length) js := by
          rw [layout_cons, List.cons_append]

/-- An entry of a layout is an instruction placed behind the code of those in front of it,
and the entries behind it are the layout of those behind it. -/
theorem exists_split_of_layout_eq {front back : List Entry} {e : Entry}
    (h : layout offset is = front ++ e :: back) :
    ∃ before i after, is = before ++ i :: after ∧
      e = .place (offset + (encodeAll before).length) i ∧
      back = layout (offset + (encodeAll before).length + i.size) after := by
  induction front generalizing offset is with
  | nil =>
      cases is with
      | nil => cases h
      | cons i is =>
          cases h
          exact ⟨[], i, is, rfl, rfl, rfl⟩
  | cons f front ih =>
      cases is with
      | nil => cases h
      | cons i is =>
          obtain ⟨before, j, after, rfl, he, hback⟩ := ih (List.cons.inj h).2
          refine ⟨i :: before, j, after, rfl, ?_, ?_⟩
          · rw [he, encodeAll_cons, List.length_append, length_encode, Nat.add_assoc]
          · rw [hback, encodeAll_cons, List.length_append, length_encode, Nat.add_assoc offset]

/-- An instruction of a layout stands behind the code of those in front of it. -/
theorem mem_layout_iff {e : Entry} :
    e ∈ layout offset is ↔ ∃ front i back, is = front ++ i :: back ∧
      e = .place (offset + (encodeAll front).length) i := by
  constructor
  · intro h
    obtain ⟨front, back, hsplit⟩ := List.append_of_mem h
    obtain ⟨before, i, after, his, he, -⟩ := exists_split_of_layout_eq hsplit
    exact ⟨before, i, after, his, he⟩
  · rintro ⟨front, i, back, rfl, rfl⟩
    rw [layout_append, List.mem_append]
    exact .inr List.mem_cons_self

theorem exists_mem_layout_iff {q : Instruction → Prop} :
    (∃ e ∈ layout offset is, q e.toInstruction) ↔ ∃ i ∈ is, q i := by
  constructor
  · rintro ⟨e, he, hq⟩
    refine ⟨e.toInstruction, ?_, hq⟩
    rw [← map_toInstruction_layout offset is]
    exact List.mem_map_of_mem he
  · rintro ⟨i, hi, hq⟩
    rw [← map_toInstruction_layout offset is] at hi
    obtain ⟨e, he, rfl⟩ := List.mem_map.mp hi
    exact ⟨e, he, hq⟩

/-- The last instruction of a layout ends where the code ends. -/
theorem getLast?_layout (offset : Nat) (h : is.getLast? = some i) :
    ∃ e, (layout offset is).getLast? = some e ∧ e.toInstruction = i ∧
      e.offset + e.size = offset + (encodeAll is).length := by
  obtain ⟨front, rfl⟩ := List.getLast?_eq_some_iff.mp h
  refine ⟨.place (offset + (encodeAll front).length) i, ?_, rfl, ?_⟩
  · rw [layout_append, layout_cons, layout_nil, List.getLast?_concat]
  · simp [Nat.add_assoc]

/-- A fold whose steps add the offset of an entry adds the offsets of all entries. -/
theorem mem_foldl_iff {add : Std.TreeMap Nat Nat → Entry × Nat → Std.TreeMap Nat Nat}
    (hadd : ∀ addresses x, offset ∈ add addresses x ↔ x.1.offset = offset ∨ offset ∈ addresses)
    {indexed : List (Entry × Nat)} {addresses : Std.TreeMap Nat Nat} :
    offset ∈ indexed.foldl add addresses ↔
      offset ∈ addresses ∨ ∃ x ∈ indexed, x.1.offset = offset := by
  induction indexed generalizing addresses with
  | nil => simp
  | cons x indexed ih =>
      rw [List.foldl_cons, ih, hadd]
      simp only [List.mem_cons, exists_eq_or_imp, or_assoc, or_left_comm]

/-- The map of entries has their offsets and no others. -/
theorem mem_addressesOf_iff {entries : List Entry} :
    offset ∈ addressesOf entries ↔ ∃ e ∈ entries, e.offset = offset := by
  have hfst : entries.zipIdx.map Prod.fst = entries := List.zipIdx_map_fst 0 entries
  have hinsert : ∀ (addresses : Std.TreeMap Nat Nat) (x : Entry × Nat),
      offset ∈ addresses.insert x.1.offset x.2 ↔ x.1.offset = offset ∨ offset ∈ addresses := by
    intro addresses x
    rw [Std.TreeMap.mem_insert, compare_eq_iff_eq]
  rw [addressesOf, mem_foldl_iff hinsert]
  constructor
  · rintro (hempty | ⟨x, hx, hoffset⟩)
    · exact absurd hempty Std.TreeMap.not_mem_emptyc
    · refine ⟨x.1, ?_, hoffset⟩
      rw [← hfst]
      exact List.mem_map_of_mem hx
  · rintro ⟨e, he, hoffset⟩
    rw [← hfst] at he
    obtain ⟨x, hx, rfl⟩ := List.mem_map.mp he
    exact .inr ⟨x, hx, hoffset⟩

/-- Reading goes on behind an instruction whose encoding it finds. -/
theorem readEntries_encode_append {done : Array Entry} (hi : i.WellFormed) :
    readEntries offset done (i.encode ++ s) =
      readEntries (offset + i.size) (done.push (.place offset i)) s := by
  apply readEntries_cons_of_ok
  exact readInstruction_eq_ok_iff.mpr ⟨hi, rfl⟩

/-- Reading the instructions of a code section gives the layout of its instructions. -/
theorem readEntries_eq_ok_iff {done entries : Array Entry} :
    readEntries offset done code = .ok entries ↔
      ∃ is, (∀ i ∈ is, i.WellFormed) ∧ code = encodeAll is ∧
        entries.toList = done.toList ++ layout offset is := by
  constructor
  · intro h
    fun_induction readEntries offset done code with
    | case1 offset done =>
        cases h
        exact ⟨[], by simp, rfl, by simp⟩
    | case2 => cases h
    | case3 offset done b s i rest hi ih =>
        obtain ⟨hwf, hs⟩ := readInstruction_eq_ok_iff.mp hi
        obtain ⟨is, his, rfl, hentries⟩ := ih h
        refine ⟨i :: is, List.forall_mem_cons.mpr ⟨hwf, his⟩, hs, ?_⟩
        rw [hentries, Array.toList_push, List.append_assoc]
        rfl
  · rintro ⟨is, his, rfl, hentries⟩
    induction is generalizing offset done with
    | nil =>
        rw [layout_nil, List.append_nil] at hentries
        rw [encodeAll_nil, readEntries, Array.toList_inj.mp hentries]
    | cons i is ih =>
        obtain ⟨hi, his⟩ := List.forall_mem_cons.mp his
        rw [encodeAll_cons, readEntries_encode_append hi]
        apply ih his
        rw [hentries, Array.toList_push, List.append_assoc]
        rfl

/-- A code section has a listing exactly if it is the code of well-formed instructions,
and lists those. -/
theorem decode_eq_ok_iff_encodeAll {l : Listing} :
    decode code = .ok l ↔ ∃ is, (∀ i ∈ is, i.WellFormed) ∧ code = encodeAll is ∧
      l = ofEntries (layout 0 is) code.length := by
  rw [decode, bind_eq_ok_iff]
  constructor
  · rintro ⟨entries, hentries, h⟩
    cases h
    obtain ⟨is, his, hcode, hlayout⟩ := readEntries_eq_ok_iff.mp hentries
    exact ⟨is, his, hcode, by rw [hlayout]; rfl⟩
  · rintro ⟨is, his, hcode, rfl⟩
    exact ⟨(layout 0 is).toArray, readEntries_eq_ok_iff.mpr ⟨is, his, hcode, rfl⟩, rfl⟩

end Listing

end ConsoleScript
