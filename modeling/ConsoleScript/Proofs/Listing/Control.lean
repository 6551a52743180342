import ConsoleScript.Listing.Jumps
import ConsoleScript.Proofs.Listing.Codec
import Mathlib.Logic.Relation

/-!
# Control in a listing

Behind an instruction control goes on at its end or at its target. An address is followed
only to the places where an instruction starts, so the runs of control are known from the
listing. Checking the jumps of a listing decides whether they stay on its instructions.

## Implementation notes

Addresses are integers, because a target may be negative. Ends and targets are words of 64
bits, so code sections are taken to be shorter than the words' upper half starts.
-/

namespace ConsoleScript

open Instruction

/-! ### Distances -/

namespace Instruction

variable {i : Instruction} {n : Int16}

/-- Only jumps have a distance. -/
theorem isJump_of_distance? (hkinds : i.operands.map Operand.kind = i.opcode.operandKinds)
    (hn : i.distance? = some n) : i.opcode.isJump = true := by
  obtain ⟨o, ho, hfound⟩ := List.exists_of_findSome?_eq_some hn
  rw [Opcode.isJump_iff, ← hkinds]
  cases o with
  | relative m => exact List.mem_map_of_mem (List.mem_reverse.mp ho)
  | _ => cases hfound

/-- The operands of a jump. -/
theorem operands_of_isJump (hkinds : i.operands.map Operand.kind = i.opcode.operandKinds)
    (hjump : i.opcode.isJump = true) :
    ∃ front n, i.operands = front ++ [.relative n] := by
  have hrelative : ∀ o : Operand, o.kind = .relative → ∃ n, o = .relative n := by
    intro o ho
    cases o with
    | relative n => exact ⟨n, rfl⟩
    | _ => cases ho
  obtain ⟨kinds, hlast⟩ : ∃ kinds, i.opcode.operandKinds = kinds ++ [.relative] := by
    cases hop : i.opcode with
    | jump => exact ⟨[], rfl⟩
    | jumpIfLast => exact ⟨[.byte], rfl⟩
    | _ =>
        rw [hop] at hjump
        cases hjump
  rw [hlast] at hkinds
  obtain ⟨front, back, hsplit, -, hback⟩ := List.map_eq_append_iff.mp hkinds
  obtain ⟨o, rfl, ho⟩ := List.map_eq_singleton_iff.mp hback
  obtain ⟨n, rfl⟩ := hrelative o ho
  exact ⟨front, n, hsplit⟩

theorem distance?_isSome_iff (hkinds : i.operands.map Operand.kind = i.opcode.operandKinds) :
    i.distance?.isSome ↔ i.opcode.isJump = true := by
  constructor
  · intro h
    obtain ⟨n, hn⟩ := Option.isSome_iff_exists.mp h
    exact isJump_of_distance? hkinds hn
  · intro h
    obtain ⟨front, n, hoperands⟩ := operands_of_isJump hkinds h
    simp [distance?, hoperands]

/-- The encoding of a jump ends with the field of its distance. -/
theorem encode_eq_append_of_distance?
    (hkinds : i.operands.map Operand.kind = i.opcode.operandKinds) (hn : i.distance? = some n) :
    ∃ head, i.encode = head ++ Bytes.ofInt16 n := by
  obtain ⟨front, m, hoperands⟩ := operands_of_isJump hkinds (isJump_of_distance? hkinds hn)
  obtain rfl : m = n := by simpa [distance?, hoperands] using hn
  refine ⟨i.opcode.toByte :: front.flatMap Operand.encode, ?_⟩
  simp [encode, hoperands, Operand.encode]

end Instruction

namespace Listing

variable {is front back : List Instruction} {i : Instruction} {e : Entry} {n : Int16}
  {l : Listing} {a b target : Int} {offset : Nat} {code : Bytes}

/-! ### Steps and runs -/

/-- Where control may go behind an instruction. -/
def Entry.successors (e : Entry) : List Int :=
  (if e.opcode = .exit ∨ e.opcode = .jump then [] else [(e.stop : Int)]) ++ e.target?.toList

theorem Entry.mem_successors_iff :
    a ∈ e.successors ↔
      (e.opcode ≠ .exit ∧ e.opcode ≠ .jump ∧ a = e.stop) ∨ e.target? = some a := by
  rw [successors, List.mem_append, Option.mem_toList]
  by_cases hstops : e.opcode = .exit ∨ e.opcode = .jump
  · have hnot : ¬(e.opcode ≠ .exit ∧ e.opcode ≠ .jump ∧ a = e.stop) := by tauto
    simp [hstops, hnot]
  · rw [if_neg hstops, List.mem_singleton]
    tauto

/-- An instruction starts at the address. -/
def Starts (l : Listing) (a : Int) : Prop := ∃ e ∈ l.entries, (e.offset : Int) = a

/-- An instruction starts at the address, or the code section ends there. -/
def Lands (l : Listing) (a : Int) : Prop := l.Starts a ∨ a = l.codeLength

/-- Control goes from the start of an instruction to one of its successors. -/
def Step (l : Listing) (a b : Int) : Prop :=
  ∃ e ∈ l.entries, (e.offset : Int) = a ∧ b ∈ e.successors

/-- A run of control steps, of any length. -/
def Reaches (l : Listing) : Int → Int → Prop := Relation.ReflTransGen l.Step

/-- What each step keeps, each run keeps. -/
theorem invariant_of_reaches {P : Int → Prop} (hstep : ∀ a b, P a → l.Step a b → P b)
    (ha : P a) (h : l.Reaches a b) : P b := by
  induction h with
  | refl => exact ha
  | tail _ hlast ih => exact hstep _ _ ih hlast

/-! ### Ends and targets in a layout -/

/-- The code in front of an instruction and the instruction are a part of the code. -/
theorem length_encodeAll_add_size_le (hsplit : is = front ++ i :: back) :
    (encodeAll front).length + i.size ≤ (encodeAll is).length := by
  rw [hsplit]
  simp

theorem stop_of_mem_layout (he : e ∈ layout offset is)
    (hlength : offset + (encodeAll is).length < 2 ^ 64) : e.stop = e.offset + e.size := by
  have hbounds := bounds_of_mem_layout he
  exact Entry.stop_of_lt (by omega)

/-- In a code section that is not too long, a jump goes as far from its end as its
distance says. -/
theorem target?_place {target : Nat} (hn : i.distance? = some n)
    (hoffset : offset + i.size < 2 ^ 63) (htarget : target < 2 ^ 63)
    (h : ((offset + i.size : Nat) : Int) + n.toInt = target) :
    (Entry.place offset i).target? = some (target : Int) := by
  have hstop : (Entry.place offset i).stop = offset + i.size :=
    Entry.stop_of_lt (e := .place offset i)
      (by simp only [Entry.offset_place, Entry.size_place]; omega)
  calc
    (Entry.place offset i).target? = some ((Entry.place offset i).stop + n.toInt) :=
      Entry.target?_of_lt (e := .place offset i) hn (by rw [hstop, h]; omega)
    _ = some (target : Int) := by rw [hstop, h]

/-- Behind an instruction the next one starts, or the code ends. -/
theorem starts_or_end (he : e ∈ layout offset is) :
    (∃ f ∈ layout offset is, f.offset = e.offset + e.size) ∨
      e.offset + e.size = offset + (encodeAll is).length := by
  obtain ⟨front, i, back, rfl, rfl⟩ := mem_layout_iff.mp he
  cases back with
  | nil =>
      right
      simp [Nat.add_assoc]
  | cons j back =>
      left
      refine ⟨.place (offset + (encodeAll front).length + i.size) j, ?_, rfl⟩
      apply mem_layout_iff.mpr
      refine ⟨front ++ [i], j, back, by simp, ?_⟩
      simp [Nat.add_assoc]

/-- No entry of a layout starts inside another. -/
theorem not_inside_of_mem_layout {f : Entry} (he : e ∈ layout offset is)
    (hf : f ∈ layout offset is) : ¬(e.offset < f.offset ∧ f.offset < e.offset + e.size) := by
  obtain ⟨front, i, back, rfl, rfl⟩ := mem_layout_iff.mp he
  rw [layout_append, layout_cons, List.mem_append, List.mem_cons] at hf
  rcases hf with hfront | rfl | hback
  · have hbounds := bounds_of_mem_layout hfront
    rw [Entry.offset_place]
    omega
  · omega
  · have hbounds := bounds_of_mem_layout hback
    rw [Entry.offset_place, Entry.size_place]
    omega

/-! ### The check of the jumps -/

/-- The targets that the check of a listing's jumps admits are those where an instruction
starts or the code ends. -/
theorem lands_iff (hlength : (encodeAll is).length < 2 ^ 63)
    (hl : l = ofEntries (layout 0 is) (encodeAll is).length) :
    l.Lands target ↔ 0 ≤ target ∧ l.IsBoundary target.toNat ∧ target ≤ l.lastTarget := by
  have hlast : l.lastTarget = l.codeLength := lastTarget_of_lt (by rw [hl]; exact hlength)
  have hmem : ∀ offset : Nat, offset ∈ l.addressMap ↔ ∃ e ∈ l.entries, e.offset = offset := by
    intro offset
    rw [hl]
    exact mem_addressesOf_iff
  have hle : ∀ e ∈ l.entries, e.offset ≤ l.codeLength := by
    intro e he
    rw [hl] at he ⊢
    have hbounds := bounds_of_mem_layout he
    show e.offset ≤ (encodeAll is).length
    omega
  rw [hlast]
  constructor
  · rintro (⟨e, he, rfl⟩ | rfl)
    · refine ⟨Int.natCast_nonneg _, .inr ?_, Int.ofNat_le.mpr (hle e he)⟩
      exact (hmem _).mpr ⟨e, he, rfl⟩
    · exact ⟨Int.natCast_nonneg _, .inl rfl, le_rfl⟩
  · rintro ⟨hpos, hend | hstart, -⟩
    · exact .inr (by omega)
    · obtain ⟨e, he, hoffset⟩ := (hmem _).mp hstart
      exact .inl ⟨e, he, by omega⟩

/-- The fault of an entry's target, if it is one. -/
theorem faultOf?_eq_some_iff (hlength : (encodeAll is).length < 2 ^ 63)
    (hl : l = ofEntries (layout 0 is) (encodeAll is).length) {fault : JumpFault} :
    l.faultOf? e = some fault ↔
      ∃ target, e.target? = some target ∧ ¬l.Lands target ∧
        fault = if target < 0 ∨ l.codeLength < target then .outOfBounds e.offset target
          else .misaligned e.offset target.toNat := by
  have hlast : l.lastTarget = l.codeLength := lastTarget_of_lt (by rw [hl]; exact hlength)
  rw [faultOf?, Option.bind_eq_some_iff]
  refine exists_congr fun target => and_congr_right fun _ => ?_
  rw [lands_iff hlength hl, hlast]
  by_cases hout : target < 0 ∨ (l.codeLength : Int) < target
  · have hnot : ¬(0 ≤ target ∧ l.IsBoundary target.toNat ∧ target ≤ l.codeLength) := by omega
    simp only [if_pos hout, hnot, not_false_eq_true, true_and, Option.some.injEq]
    exact eq_comm
  · by_cases hboundary : l.IsBoundary target.toNat
    · have hvalid : 0 ≤ target ∧ l.IsBoundary target.toNat ∧ target ≤ l.codeLength :=
        ⟨by omega, hboundary, by omega⟩
      simp [if_neg hout, hboundary, hvalid]
    · simp only [if_neg hout, hboundary, if_false, false_and, and_false, not_false_eq_true,
        true_and, Option.some.injEq]
      exact eq_comm

theorem faultOf?_eq_none_iff_lands (hlength : (encodeAll is).length < 2 ^ 63)
    (hl : l = ofEntries (layout 0 is) (encodeAll is).length) :
    l.faultOf? e = none ↔ ∀ t, e.target? = some t → l.Lands t := by
  rw [faultOf?_eq_none_iff]
  exact forall_congr' fun t => imp_congr_right fun _ => (lands_iff hlength hl).symm

/-- The fault that the check reports is that of the first target that does not land. -/
theorem jumpFault?_eq_some_iff (hlength : (encodeAll is).length < 2 ^ 63)
    (hl : l = ofEntries (layout 0 is) (encodeAll is).length) {fault : JumpFault} :
    l.jumpFault? = some fault ↔ ∃ before e after target,
      l.entries = before ++ e :: after ∧ e.target? = some target ∧ ¬l.Lands target ∧
        (∀ f ∈ before, ∀ t, f.target? = some t → l.Lands t) ∧
        fault = if target < 0 ∨ l.codeLength < target then .outOfBounds e.offset target
          else .misaligned e.offset target.toNat := by
  rw [jumpFault?, List.findSome?_eq_some_iff]
  constructor
  · rintro ⟨before, e, after, hsplit, he, hbefore⟩
    obtain ⟨target, htarget, hmiss, hcause⟩ := (faultOf?_eq_some_iff hlength hl).mp he
    refine ⟨before, e, after, target, hsplit, htarget, hmiss, ?_, hcause⟩
    intro f hf
    exact (faultOf?_eq_none_iff_lands hlength hl).mp (hbefore f hf)
  · rintro ⟨before, e, after, target, hsplit, htarget, hmiss, hbefore, hcause⟩
    refine ⟨before, e, after, hsplit, ?_, ?_⟩
    · exact (faultOf?_eq_some_iff hlength hl).mpr ⟨target, htarget, hmiss, hcause⟩
    · intro f hf
      exact (faultOf?_eq_none_iff_lands hlength hl).mpr (hbefore f hf)

/-- The first instruction starts at the start of the code, if there is one. -/
theorem lands_zero (hl : l = ofEntries (layout 0 is) (encodeAll is).length) : l.Lands 0 := by
  cases is with
  | nil =>
      right
      rw [hl]
      rfl
  | cons i is =>
      left
      refine ⟨.place 0 i, ?_, rfl⟩
      rw [hl]
      exact List.mem_cons_self

/-- Where control lands, it is not inside an instruction. -/
theorem not_inside_of_lands (hl : l = ofEntries (layout 0 is) (encodeAll is).length)
    (ha : l.Lands a) (he : e ∈ l.entries) :
    ¬(e.offset < a ∧ a < (e.offset + e.size : Nat)) := by
  have hlength : l.codeLength = (encodeAll is).length := by rw [hl]; rfl
  have hentries : l.entries = layout 0 is := by rw [hl]; rfl
  rw [hentries] at he
  rcases ha with ⟨f, hf, rfl⟩ | rfl
  · rw [hentries] at hf
    have hinside := not_inside_of_mem_layout he hf
    omega
  · have hbounds := bounds_of_mem_layout he
    omega

/-- If all targets land, so do all steps. -/
theorem lands_of_step (hlength : (encodeAll is).length < 2 ^ 63)
    (hl : l = ofEntries (layout 0 is) (encodeAll is).length)
    (htargets : ∀ e ∈ l.entries, ∀ target, e.target? = some target → l.Lands target)
    (h : l.Step a b) : l.Lands b := by
  obtain ⟨e, he, -, hb⟩ := h
  rcases Entry.mem_successors_iff.mp hb with ⟨-, -, rfl⟩ | htarget
  · rw [hl] at he ⊢
    rw [stop_of_mem_layout he (by omega)]
    rcases starts_or_end he with ⟨f, hf, hoffset⟩ | hend
    · exact .inl ⟨f, hf, by rw [hoffset]⟩
    · right
      rw [hend, Nat.zero_add]
      rfl
  · exact htargets e he b htarget

/-- If the check finds no fault, runs of control from the start land. -/
theorem lands_of_reaches (hlength : (encodeAll is).length < 2 ^ 63)
    (hl : l = ofEntries (layout 0 is) (encodeAll is).length) (hvalid : l.jumpFault? = none)
    (h : l.Reaches 0 a) : l.Lands a := by
  have htargets : ∀ e ∈ l.entries, ∀ t, e.target? = some t → l.Lands t := by
    intro e he
    exact (faultOf?_eq_none_iff_lands hlength hl).mp (jumpFault?_eq_none_iff.mp hvalid e he)
  apply invariant_of_reaches _ (lands_zero hl) h
  intro a b _ hstep
  exact lands_of_step hlength hl htargets hstep

/-- The entries with a target are the jumps. -/
theorem isSome_target?_iff (hwf : ∀ i ∈ is, i.WellFormed) (he : e ∈ layout offset is) :
    e.target?.isSome ↔ e.opcode.isJump = true := by
  obtain ⟨front, i, back, rfl, rfl⟩ := mem_layout_iff.mp he
  rw [Entry.target?, Option.isSome_map]
  exact distance?_isSome_iff (hwf i (by simp)).1

/-- The field of an entry's jump in the code, and the target that it leads to. -/
theorem exists_field_of_target? (hlength : (encodeAll is).length < 2 ^ 63)
    (hwf : ∀ i ∈ is, i.WellFormed) (he : e ∈ layout 0 is) (htarget : e.target?.isSome) :
    ∃ low high, (encodeAll is)[e.offset + e.size - 2]? = some low ∧
      (encodeAll is)[e.offset + e.size - 1]? = some high ∧
      e.target? =
        some (Address.signed ((e.offset + e.size : Nat) + (Bytes.toInt16 low high).toInt)) := by
  obtain ⟨front, i, back, rfl, rfl⟩ := mem_layout_iff.mp he
  obtain ⟨n, hn⟩ : ∃ n, i.distance? = some n := by
    rw [Entry.target?, Option.isSome_map] at htarget
    exact Option.isSome_iff_exists.mp htarget
  obtain ⟨head, hhead⟩ := encode_eq_append_of_distance? (hwf i (by simp)).1 hn
  obtain ⟨low, high, hfield, hvalue⟩ := Bytes.toInt16_ofInt16 n
  have hsize : i.size = head.length + 2 := by
    rw [← length_encode, hhead, List.length_append, Bytes.length_ofInt16]
  have hcode : encodeAll (front ++ i :: back) =
      (encodeAll front ++ head) ++ low :: high :: encodeAll back := by
    simp [hhead, hfield]
  have hlow : 0 + (encodeAll front).length + i.size - 2 = (encodeAll front ++ head).length := by
    rw [List.length_append]
    omega
  have hhigh : 0 + (encodeAll front).length + i.size - 1 =
      (encodeAll front ++ head).length + 1 := by
    rw [List.length_append]
    omega
  refine ⟨low, high, ?_, ?_, ?_⟩
  · rw [Entry.offset_place, Entry.size_place, hlow, hcode]
    simp
  · rw [Entry.offset_place, Entry.size_place, hhigh, hcode,
      List.getElem?_append_right (Nat.le_add_right _ 1), Nat.add_sub_cancel_left]
    rfl
  · rw [Entry.target?, Entry.toInstruction_place, hn, Option.map_some,
      stop_of_mem_layout he (by omega), hvalue]

/-- The check of a listing's jumps is sound and complete. If it finds no fault, every run of
control from the start of the code stays on addresses where an instruction starts or the
code ends, so control is never inside an instruction. If it finds one, this is the fault of
the first instruction whose target is no such address: the target is out of bounds if it
is negative or behind the end of the code, and misaligned otherwise. The instructions with
a target are the jumps, and their targets count from the end of the 16-bit field that ends
the instruction. Ends and targets are words of 64 bits, so this is about code sections
below the words' sign bit, and a target is exact where the sum has a signed word. -/
theorem jumpFault?_sound_complete (h : decode code = .ok l) (hlength : code.length < 2 ^ 63) :
    (l.jumpFault? = none → ∀ a, l.Reaches 0 a →
      l.Lands a ∧ ∀ e ∈ l.entries, ¬(e.offset < a ∧ a < (e.offset + e.size : Nat))) ∧
    (∀ fault, l.jumpFault? = some fault ↔ ∃ before e after target,
      l.entries = before ++ e :: after ∧ e.target? = some target ∧ ¬l.Lands target ∧
        (∀ f ∈ before, ∀ t, f.target? = some t → l.Lands t) ∧
        fault = if target < 0 ∨ l.codeLength < target then .outOfBounds e.offset target
          else .misaligned e.offset target.toNat) ∧
    ∀ e ∈ l.entries, (e.target?.isSome ↔ e.opcode.isJump = true) ∧
      (e.opcode.isJump = true → ∃ low high, code[e.offset + e.size - 2]? = some low ∧
        code[e.offset + e.size - 1]? = some high ∧
        (((e.offset + e.size : Nat) : Int) + (Bytes.toInt16 low high).toInt < 2 ^ 63 →
          e.target? = some ((e.offset + e.size : Nat) + (Bytes.toInt16 low high).toInt))) := by
  obtain ⟨is, hwf, rfl, hl⟩ := decode_eq_ok_iff_encodeAll.mp h
  have hentries : l.entries = layout 0 is := by rw [hl]; rfl
  refine ⟨?_, ?_, ?_⟩
  · intro hvalid a ha
    have hlands := lands_of_reaches hlength hl hvalid ha
    exact ⟨hlands, fun e he => not_inside_of_lands hl hlands he⟩
  · intro fault
    exact jumpFault?_eq_some_iff hlength hl
  · intro e he
    rw [hentries] at he
    have hiff := isSome_target?_iff hwf he
    refine ⟨hiff, ?_⟩
    intro hjump
    obtain ⟨low, high, hlow, hhigh, htarget⟩ :=
      exists_field_of_target? hlength hwf he (hiff.mpr hjump)
    refine ⟨low, high, hlow, hhigh, ?_⟩
    intro hsum
    have hfield := (Bytes.toInt16 low high).le_toInt
    rw [htarget, Address.signed_of_le_of_lt (by omega) hsum]

theorem jumpFault?_sound_complete_of_loop_and_misaligned :
    (∃ l, decode [0x51, 1, 0, 0, 0x50, 0xF9, 0xFF] = .ok l ∧ l.jumpFault? = none ∧
        ∀ a, l.Reaches 0 a → l.Lands a) ∧
      ∃ l, decode [0xF4, 0x50, 0xFE, 0xFF] = .ok l ∧
        l.jumpFault? = some (.misaligned 1 2) ∧ ∃ e target, e ∈ l.entries ∧ ¬l.Lands target ∧
          e.target? = some target := by
  constructor
  · have h : decode [0x51, 1, 0, 0, 0x50, 0xF9, 0xFF] = .ok (ofEntries
        (layout 0 [⟨.jumpIfLast, [.byte 1, .relative 0]⟩, ⟨.jump, [.relative (-7)]⟩]) 7) :=
      decode_eq_ok_iff_encodeAll.mpr ⟨_, by decide, by decide, rfl⟩
    obtain ⟨hsound, -⟩ := jumpFault?_sound_complete h (by decide)
    refine ⟨_, h, by decide +kernel, ?_⟩
    intro a ha
    exact (hsound (by decide +kernel) a ha).1
  · have h : decode [0xF4, 0x50, 0xFE, 0xFF] = .ok (ofEntries
        (layout 0 [⟨.noop, []⟩, ⟨.jump, [.relative (-2)]⟩]) 4) :=
      decode_eq_ok_iff_encodeAll.mpr ⟨_, by decide, by decide, rfl⟩
    have hfault : (ofEntries (layout 0 [⟨.noop, []⟩, ⟨.jump, [.relative (-2)]⟩]) 4).jumpFault? =
        some (.misaligned 1 2) := by decide +kernel
    obtain ⟨-, hcomplete, -⟩ := jumpFault?_sound_complete h (by decide)
    obtain ⟨before, e, after, target, hsplit, htarget, hmiss, -⟩ := (hcomplete _).mp hfault
    exact ⟨_, h, hfault, e, target, by rw [hsplit]; simp, hmiss, htarget⟩

end Listing

end ConsoleScript
