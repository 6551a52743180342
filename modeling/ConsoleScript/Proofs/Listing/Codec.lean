import ConsoleScript.Proofs.Listing.Layout
import Mathlib.Data.List.Induction

/-!
# Listings as a second form of code sections

The listing of a code section says the same as its bytes: emitting the listed instructions
gives the code section back, and each sequence of well-formed instructions is what its code
is listed as. The places and the map of a listing follow from its instructions.
-/

namespace ConsoleScript

open Instruction

namespace Listing

variable {offset index : Nat} {is : List Instruction} {entries : List Entry} {e : Entry}
  {code : Bytes} {l : Listing}

/-! ### Places -/

theorem sum_size_layout : ((layout offset is).map Entry.size).sum = (encodeAll is).length := by
  induction is generalizing offset with
  | nil => rfl
  | cons i is ih => simp [ih]

/-- An entry of a layout stands behind the sizes of those in front of it. -/
theorem offset_of_layout_eq {front back : List Entry}
    (h : layout offset is = front ++ e :: back) :
    e.offset = offset + (front.map Entry.size).sum := by
  induction front generalizing offset is with
  | nil =>
      obtain ⟨i, is, rfl⟩ : ∃ i js, is = i :: js := by
        cases is with
        | nil => cases h
        | cons i js => exact ⟨i, js, rfl⟩
      have he : Entry.place offset i = e := (List.cons.inj h).1
      simp [← he]
  | cons f front ih =>
      obtain ⟨i, is, rfl⟩ : ∃ i js, is = i :: js := by
        cases is with
        | nil => cases h
        | cons i js => exact ⟨i, js, rfl⟩
      obtain ⟨hf, htail⟩ := List.cons.inj h
      have hsize : f.size = i.size := by rw [← hf, Entry.size_place]
      calc
        e.offset = offset + i.size + (front.map Entry.size).sum := ih htail
        _ = offset + ((f :: front).map Entry.size).sum := by
          rw [List.map_cons, List.sum_cons, hsize, Nat.add_assoc]

/-- A layout lies between its start and the end of its code. -/
theorem bounds_of_mem_layout (he : e ∈ layout offset is) :
    offset ≤ e.offset ∧ e.offset + e.size ≤ offset + (encodeAll is).length := by
  obtain ⟨front, i, back, rfl, rfl⟩ := mem_layout_iff.mp he
  rw [encodeAll_append, encodeAll_cons, List.length_append, List.length_append, length_encode,
    Entry.offset_place, Entry.size_place]
  omega

/-- An entry of a layout starts where the one in front of it ends, or further behind. -/
theorem pairwise_layout (offset : Nat) (is : List Instruction) :
    (layout offset is).Pairwise fun e f => e.offset + e.size ≤ f.offset := by
  induction is generalizing offset with
  | nil => exact List.Pairwise.nil
  | cons i is ih =>
      refine List.Pairwise.cons ?_ (ih _)
      intro f hf
      exact (bounds_of_mem_layout hf).1

/-- An entry of a layout has the size of its instruction. -/
theorem size_of_mem_layout (he : e ∈ layout offset is) : e.size = e.toInstruction.size := by
  obtain ⟨front, i, back, -, rfl⟩ := mem_layout_iff.mp he
  rfl

/-- The offsets of a layout grow from entry to entry. -/
theorem pairwise_offset_lt_layout (offset : Nat) (is : List Instruction) :
    (layout offset is).Pairwise fun e f => e.offset < f.offset := by
  refine (pairwise_layout offset is).imp_of_mem ?_
  intro e f he _ hle
  have hpos := e.toInstruction.size_pos
  rw [size_of_mem_layout he] at hle
  omega

theorem pairwise_offset_ne_layout (offset : Nat) (is : List Instruction) :
    (layout offset is).Pairwise fun e f => e.offset ≠ f.offset :=
  (pairwise_offset_lt_layout offset is).imp fun hlt => Nat.ne_of_lt hlt

/-! ### The map of addresses -/

/-- The map of entries is grown entry by entry. -/
theorem getElem?_addressesOf_concat :
    (addressesOf (entries ++ [e]))[offset]? =
      if e.offset = offset then some entries.length else (addressesOf entries)[offset]? := by
  have hconcat : addressesOf (entries ++ [e]) =
      (addressesOf entries).insert e.offset entries.length := by
    rw [addressesOf, List.zipIdx_append, List.foldl_append]
    simp [addressesOf]
  rw [hconcat, Std.TreeMap.getElem?_insert]
  simp only [compare_eq_iff_eq]

/-- If the entries stand at different places, their map has the pairs of an entry's offset
and its index and no others. -/
theorem getElem?_addressesOf (h : entries.Pairwise fun e f => e.offset ≠ f.offset) :
    (addressesOf entries)[offset]? = some index ↔
      ∃ e, entries[index]? = some e ∧ e.offset = offset := by
  induction entries using List.reverseRecOn with
  | nil => simp [addressesOf]
  | append_singleton entries e ih =>
      obtain ⟨hentries, -, hne⟩ := List.pairwise_append.mp h
      have hconcat : (∃ f, (entries ++ [e])[index]? = some f ∧ f.offset = offset) ↔
          (∃ f, entries[index]? = some f ∧ f.offset = offset) ∨
            index = entries.length ∧ e.offset = offset := by
        rw [List.getElem?_append]
        split
        · have hindex : index ≠ entries.length := by omega
          simp [hindex]
        · have hnone : entries[index]? = none := List.getElem?_eq_none (by omega)
          have hlast : index - entries.length = 0 ↔ index = entries.length := by omega
          simp [hnone, List.getElem?_singleton, hlast]
      rw [getElem?_addressesOf_concat, hconcat]
      by_cases hoffset : e.offset = offset
      · have hnone : ¬∃ f, entries[index]? = some f ∧ f.offset = offset := by
          rintro ⟨f, hf, hsame⟩
          apply hne f (List.mem_of_getElem? hf) e (List.mem_singleton.mpr rfl)
          exact hsame.trans hoffset.symm
        rw [if_pos hoffset, or_iff_right hnone, Option.some.injEq, and_iff_left hoffset]
        exact eq_comm
      · simp [hoffset, ih hentries]

/-- A listing gives the entry that starts at an offset, if there is one. -/
theorem entryAt?_layout {codeLength : Nat} :
    (ofEntries (layout offset is) codeLength).entryAt? index = some e ↔
      e ∈ layout offset is ∧ e.offset = index := by
  rw [entryAt?, Option.bind_eq_some_iff]
  constructor
  · rintro ⟨k, hk, he⟩
    obtain ⟨f, hf, hoffset⟩ := (getElem?_addressesOf (pairwise_offset_ne_layout _ _)).mp hk
    obtain rfl : f = e := Option.some.inj (hf.symm.trans he)
    exact ⟨List.mem_of_getElem? hf, hoffset⟩
  · rintro ⟨he, hoffset⟩
    obtain ⟨k, hk⟩ := List.mem_iff_getElem?.mp he
    exact ⟨k, (getElem?_addressesOf (pairwise_offset_ne_layout _ _)).mpr ⟨e, hk, hoffset⟩, hk⟩

/-! ### Decoding and emitting -/

/-- The instructions of a listing fill its code section one behind the other. -/
structure Tiles (l : Listing) : Prop where
  offset_eq : ∀ front e back, l.entries = front ++ e :: back →
    e.offset = (front.map Entry.size).sum
  sum_sizes : (l.entries.map Entry.size).sum = l.codeLength
  stop_last : ∀ e, l.entries.getLast? = some e → l.codeLength < 2 ^ 64 → e.stop = l.codeLength

theorem Tiles.of_decode (h : decode code = .ok l) : l.Tiles := by
  obtain ⟨is, -, rfl, rfl⟩ := decode_eq_ok_iff_encodeAll.mp h
  have hoffset : ∀ front e back, layout 0 is = front ++ e :: back →
      e.offset = (front.map Entry.size).sum := by
    intro front e back hsplit
    rw [offset_of_layout_eq hsplit, Nat.zero_add]
  refine ⟨hoffset, sum_size_layout, ?_⟩
  intro e he hlength
  obtain ⟨front, hsplit⟩ := List.getLast?_eq_some_iff.mp he
  have hend : e.offset + e.size = (encodeAll is).length := by
    calc
      e.offset + e.size = ((front ++ [e]).map Entry.size).sum := by
        rw [hoffset front e [] hsplit]
        simp
      _ = ((layout 0 is).map Entry.size).sum := by rw [← hsplit]; rfl
      _ = (encodeAll is).length := sum_size_layout
  have hword : (encodeAll is).length < 2 ^ 64 := hlength
  calc
    e.stop = e.offset + e.size := Entry.stop_of_lt (by omega)
    _ = (encodeAll is).length := hend

/-- Decoding and emitting undo each other. What a buffer holds when well-formed instructions
are emitted into it is listed as these instructions. What has a listing is what emitting
the listed instructions gives, and these are well-formed. In a listing the instructions
fill the code section, the map has the pairs of an instruction's offset and its index and
no others, and the entry at an offset is the one that starts there. -/
theorem decode_inverse_emitAll :
    (∀ is : List Instruction, (∀ i ∈ is, i.WellFormed) →
      ∃ l, decode (CodeBuffer.emitAll {} is).toList = .ok l ∧
        l.entries.map Entry.toInstruction = is) ∧
    ∀ (code : Bytes) (l : Listing), decode code = .ok l →
      (∀ e ∈ l.entries, e.toInstruction.WellFormed) ∧
      (CodeBuffer.emitAll {} (l.entries.map Entry.toInstruction)).toList = code ∧
      l.codeLength = code.length ∧ l.Tiles ∧
      (∀ offset index : Nat, l.addressMap[offset]? = some index ↔
        ∃ e : Entry, l.entries[index]? = some e ∧ e.offset = offset) ∧
      ∀ (offset : Nat) (e : Entry), l.entryAt? offset = some e ↔ e ∈ l.entries ∧ e.offset = offset := by
  have hemit : ∀ is : List Instruction,
      (CodeBuffer.emitAll {} is).toList = encodeAll is := by
    intro is
    rw [CodeBuffer.toList_emitAll, CodeBuffer.toList_empty, List.nil_append]
  constructor
  · intro is his
    refine ⟨ofEntries (layout 0 is) (encodeAll is).length, ?_, map_toInstruction_layout 0 is⟩
    rw [hemit]
    exact decode_eq_ok_iff_encodeAll.mpr ⟨is, his, rfl, rfl⟩
  · intro code l h
    have htiles := Tiles.of_decode h
    obtain ⟨is, his, hcode, rfl⟩ := decode_eq_ok_iff_encodeAll.mp h
    have hentries : (layout 0 is).map Entry.toInstruction = is := map_toInstruction_layout 0 is
    refine ⟨?_, ?_, rfl, htiles, ?_, ?_⟩
    · intro e he
      apply his
      rw [← hentries]
      exact List.mem_map_of_mem he
    · calc
        (CodeBuffer.emitAll {} ((layout 0 is).map Entry.toInstruction)).toList =
            encodeAll is := by rw [hentries, hemit]
        _ = code := hcode.symm
    · intro offset index
      exact getElem?_addressesOf (pairwise_offset_ne_layout 0 is)
    · intro offset e
      exact entryAt?_layout

theorem decode_inverse_emitAll_of_writeFile_and_jumpIfLast :
    (∀ i ∈ ([⟨.writeFile, [.string [97], .string []]⟩,
        ⟨.jumpIfLast, [.byte 0, .relative (-9)]⟩] : List Instruction), i.WellFormed) ∧
      ∃ l, decode [0x11, 97, 0, 0, 0x51, 0, 0xF7, 0xFF] = .ok l ∧
        (CodeBuffer.emitAll {} (l.entries.map Entry.toInstruction)).toList =
          [0x11, 97, 0, 0, 0x51, 0, 0xF7, 0xFF] := by
  obtain ⟨hlisted, hlisting⟩ := decode_inverse_emitAll
  obtain ⟨l, hl, -⟩ := hlisted [⟨.writeFile, [.string [97], .string []]⟩,
    ⟨.jumpIfLast, [.byte 0, .relative (-9)]⟩] (by decide)
  exact ⟨by decide, l, hl, (hlisting _ l hl).2.1⟩

end Listing

end ConsoleScript
