import ConsoleScript.Proofs.Listing.Joining
import ConsoleScript.Proofs.Listing.Positions

/-!
# The encoding delimits itself

Where an instruction ends is seen from its own bytes. So code sections can be joined, and a
code section that is cut has a listing exactly if the cut is in front of an instruction. A
cut inside an instruction is inside one of its fields, and the field fixes the error.
-/

namespace ConsoleScript

open Instruction

/-- The error of a field at a position that the code ends inside of. -/
def OperandKind.cutError (start position : Nat) (opcode : Opcode) (kind : OperandKind) :
    DecodeError :=
  if kind = .string then .unterminatedString position else .truncated start opcode

namespace Listing

/-- A code section of the length ends inside the entry, in the field of the operand `o` that
starts at `p`. -/
structure Entry.IsCutInField (e : Entry) (length : Nat) (o : Operand) (p : Nat) : Prop where
  offset_lt : e.offset < length
  lt_end : length < e.offset + e.size
  exists_front : ∃ front back, e.operands = front ++ o :: back ∧
    p = e.offset + 1 + (front.flatMap Operand.encode).length
  le_length : p ≤ length
  lt_field_end : length < p + o.size

variable {start position length : Nat} {opcode : Opcode} {code : Bytes}
  {is : List Instruction} {i : Instruction} {l : Listing} {o : Operand}

/-! ### Cut fields -/

/-- A place in joined encodings lies inside one of them. -/
theorem exists_split_of_lt_length {α : Type} (encode : α → Bytes) {xs : List α}
    (h : length < (xs.flatMap encode).length) :
    ∃ front x back, xs = front ++ x :: back ∧ (front.flatMap encode).length ≤ length ∧
      length < (front.flatMap encode).length + (encode x).length ∧
      (xs.flatMap encode).take length =
        front.flatMap encode ++ (encode x).take (length - (front.flatMap encode).length) := by
  induction xs generalizing length with
  | nil => exact absurd h (Nat.not_lt_zero _)
  | cons x xs ih =>
      rw [List.flatMap_cons] at h ⊢
      by_cases hx : length < (encode x).length
      · refine ⟨[], x, xs, rfl, Nat.zero_le _, by simpa using hx, ?_⟩
        exact List.take_append_of_le_length (Nat.le_of_lt hx)
      · rw [List.length_append] at h
        have hbehind : length - (encode x).length < (xs.flatMap encode).length := by omega
        obtain ⟨front, y, back, rfl, hfront, hy, htake⟩ := ih hbehind
        refine ⟨x :: front, y, back, rfl, ?_, ?_, ?_⟩
        · rw [List.flatMap_cons, List.length_append]
          omega
        · rw [List.flatMap_cons, List.length_append]
          omega
        · rw [List.take_append, List.take_of_length_le (Nat.le_of_not_lt hx), htake,
            List.flatMap_cons, List.append_assoc, List.length_append, Nat.sub_sub]

/-- A field is not read from a proper part of it. -/
theorem readOperand_take (ho : o.Delimited) (h : length < o.size) :
    readOperand start position opcode o.kind (o.encode.take length) =
      .error (o.kind.cutError start position opcode) := by
  cases o with
  | byte b =>
      obtain rfl : length = 0 := Nat.lt_one_iff.mp h
      rfl
  | string text =>
      have hsize : (Operand.string text).size = text.length + 1 := List.length_append
      have htake : (text ++ [0]).take length = text.take length :=
        List.take_append_of_le_length (by omega)
      have hzero : (text.take length).dropWhile (· != 0) = [] := by
        rw [List.dropWhile_eq_nil_iff]
        intro b hb
        rw [bne_iff_ne]
        rintro rfl
        exact ho (List.mem_of_mem_take hb)
      rw [Operand.kind, Operand.encode, htake, readOperand, hzero]
      rfl
  | relative n =>
      obtain ⟨low, high, hfield, -⟩ := Bytes.toInt16_ofInt16 n
      have hsize : (Operand.relative n).size = 2 := Bytes.length_ofInt16 n
      obtain rfl | rfl : length = 0 ∨ length = 1 := by omega
      all_goals
        rw [Operand.kind, Operand.encode, hfield]
        rfl

/-- An error behind fields that can be read is the error of all of them. -/
theorem readOperands_append_of_error {operands : List Operand} {kinds : List OperandKind}
    {s : Bytes} {e : DecodeError} (hdelimited : ∀ o ∈ operands, o.Delimited)
    (h : readOperands start (position + (operands.flatMap Operand.encode).length) opcode kinds s =
      .error e) :
    readOperands start position opcode (operands.map Operand.kind ++ kinds)
      (operands.flatMap Operand.encode ++ s) = .error e := by
  induction operands generalizing position with
  | nil => exact h
  | cons o operands ih =>
      obtain ⟨ho, hlater⟩ := List.forall_mem_cons.mp hdelimited
      have hfirst : readOperand start position opcode o.kind
          (o.encode ++ (operands.flatMap Operand.encode ++ s)) =
          .ok (o, operands.flatMap Operand.encode ++ s) :=
        readOperand_eq_ok_iff.mpr ⟨rfl, ho, rfl⟩
      rw [List.flatMap_cons, List.length_append, ← Nat.add_assoc] at h
      rw [List.flatMap_cons, List.append_assoc, List.map_cons, List.cons_append, readOperands]
      apply bind_eq_error_iff.mpr
      exact .inr ⟨_, hfirst, bind_eq_error_iff.mpr (.inl (ih hlater h))⟩

/-- An instruction that is cut behind its opcode is cut inside one of its fields, and fails
as that field does. -/
theorem readInstruction_take (start : Nat) (hi : i.WellFormed) (h : length + 1 < i.size) :
    ∃ front o back, i.operands = front ++ o :: back ∧
      (front.flatMap Operand.encode).length ≤ length ∧
      length < (front.flatMap Operand.encode).length + o.size ∧
      readInstruction start i.opcode.toByte
          ((i.operands.flatMap Operand.encode).take length) =
        .error (o.kind.cutError start (start + 1 + (front.flatMap Operand.encode).length)
          i.opcode) := by
  obtain ⟨hkinds, hdelimited⟩ := hi
  have hsize : i.size = (i.operands.flatMap Operand.encode).length + 1 := List.length_cons
  have hfields : length < (i.operands.flatMap Operand.encode).length := by omega
  obtain ⟨front, o, back, hoperands, hfront, ho, htake⟩ :=
    exists_split_of_lt_length Operand.encode hfields
  refine ⟨front, o, back, hoperands, hfront, ho, ?_⟩
  have hcut : readOperand start (start + 1 + (front.flatMap Operand.encode).length) i.opcode o.kind
      (o.encode.take (length - (front.flatMap Operand.encode).length)) =
      .error (o.kind.cutError start (start + 1 + (front.flatMap Operand.encode).length)
        i.opcode) := by
    apply readOperand_take (hdelimited o _)
    · show _ < o.encode.length
      omega
    · rw [hoperands]
      exact List.mem_append_right front List.mem_cons_self
  rw [readInstruction, Opcode.ofByte?_toByte]
  apply bind_eq_error_iff.mpr
  rw [← hkinds, htake, hoperands, List.map_append]
  refine .inl (readOperands_append_of_error (fun o ho => hdelimited o ?_) ?_)
  · rw [hoperands]
    exact List.mem_append_left _ ho
  · exact bind_eq_error_iff.mpr (.inl hcut)

/-! ### Cut code sections -/

/-- The entries of a layout in front of an instruction are the layout of those in front. -/
theorem filter_layout_append {before after : List Instruction} :
    (layout 0 (before ++ after)).filter (·.offset < (encodeAll before).length) =
      layout 0 before := by
  rw [layout_append, List.filter_append, Nat.zero_add]
  have hbefore : (layout 0 before).filter (·.offset < (encodeAll before).length) =
      layout 0 before := by
    rw [List.filter_eq_self]
    intro e he
    have hbounds := (bounds_of_mem_layout he).2
    have hpos := e.toInstruction.size_pos
    rw [size_of_mem_layout he] at hbounds
    simp only [decide_eq_true_eq]
    omega
  have hafter : (layout (encodeAll before).length after).filter
      (·.offset < (encodeAll before).length) = [] := by
    rw [List.filter_eq_nil_iff]
    intro e he
    have hbounds := (bounds_of_mem_layout he).1
    simp only [decide_eq_true_eq]
    omega
  rw [hbefore, hafter, List.append_nil]

/-- A code section that is cut in front of an instruction has the listing of what is in
front of it. -/
theorem decode_take_of_mem {e : Entry} (h : decode code = .ok l) (he : e ∈ l.entries) :
    decode (code.take e.offset) =
      .ok (ofEntries (l.entries.filter (·.offset < e.offset)) e.offset) := by
  obtain ⟨is, his, rfl, rfl⟩ := decode_eq_ok_iff_encodeAll.mp h
  obtain ⟨before, i, after, rfl, rfl⟩ := mem_layout_iff.mp he
  have hoffset : (Entry.place (0 + (encodeAll before).length) i).offset =
      (encodeAll before).length := Nat.zero_add _
  have htake : (encodeAll (before ++ i :: after)).take (encodeAll before).length =
      encodeAll before := by
    rw [encodeAll_append, List.take_left]
  rw [hoffset, htake]
  apply decode_eq_ok_iff_encodeAll.mpr
  refine ⟨before, (List.forall_mem_append.mp his).1, rfl, ?_⟩
  show ofEntries ((layout 0 _).filter _) _ = _
  rw [filter_layout_append]

/-- A code section is cut in front of an instruction, or inside one field of an instruction
and fails as that field does. -/
theorem decode_take_cases (h : decode code = .ok l) (hlength : length < code.length) :
    (∃ e ∈ l.entries, e.offset = length) ∨
      ∃ e ∈ l.entries, ∃ o p, e.IsCutInField length o p ∧
        decode (code.take length) = .error (o.kind.cutError e.offset p e.opcode) := by
  obtain ⟨is, his, rfl, rfl⟩ := decode_eq_ok_iff_encodeAll.mp h
  obtain ⟨before, i, after, rfl, hbefore, hi, htake⟩ : ∃ before i after, is = before ++ i :: after ∧
      (encodeAll before).length ≤ length ∧ length < (encodeAll before).length + i.size ∧
      (encodeAll is).take length =
        encodeAll before ++ i.encode.take (length - (encodeAll before).length) :=
    exists_split_of_lt_length encode hlength
  have he : Entry.place (encodeAll before).length i ∈ layout 0 (before ++ i :: after) :=
    mem_layout_iff.mpr ⟨before, i, after, rfl, by rw [Nat.zero_add]⟩
  obtain ⟨hbeforeWf, hiWf⟩ := List.forall_mem_append.mp his
  rcases Nat.eq_or_lt_of_le hbefore with heq | hlt
  · exact .inl ⟨_, he, heq⟩
  · -- the byte of the opcode is in front of the cut, and the cut falls into the fields
    obtain ⟨fields, rfl⟩ : ∃ fields, length = (encodeAll before).length + (fields + 1) :=
      ⟨length - (encodeAll before).length - 1, by omega⟩
    have hfields : fields + 1 < i.size := by omega
    obtain ⟨front, o, back, hoperands, hfront, ho, herror⟩ :=
      readInstruction_take (encodeAll before).length (hiWf i List.mem_cons_self) hfields
    refine .inr ⟨_, he, o, _, ⟨hlt, hi, ⟨front, back, hoperands, rfl⟩, ?_, ?_⟩, ?_⟩
    · rw [Entry.offset_place]
      omega
    · rw [Entry.offset_place]
      omega
    · apply decode_eq_error_iff.mpr
      refine ⟨before, i.opcode.toByte, (i.operands.flatMap Operand.encode).take fields,
        hbeforeWf, ?_, herror⟩
      rw [htake, Nat.add_sub_cancel_left]
      rfl

/-- The encoding delimits itself. Behind a code section that has a listing, decoding goes on
as at the front, with offsets that are greater by its length, and so are the pairs of the
map and an error's offset. What has a listing and is cut has one exactly if the cut is in
front of an instruction, and then lists the instructions in front of the cut. Another cut
is inside a field of an instruction: a string is then not terminated, and an instruction with
another field is truncated. Decoding looks at no byte outside the code. -/
theorem decode_self_delimiting :
    (∀ (a b : Bytes) (l : Listing), decode a = .ok l →
      (∀ m, decode b = .ok m → ∃ joined, decode (a ++ b) = .ok joined ∧
        joined.entries = l.entries ++ m.entries.map (Entry.shift a.length) ∧
        joined.codeLength = a.length + b.length ∧
        ∀ offset index : Nat, joined.addressMap[offset]? = some index ↔
          l.addressMap[offset]? = some index ∨
            ∃ offset' index', offset = a.length + offset' ∧ index = l.entries.length + index' ∧
              m.addressMap[offset']? = some index') ∧
      ∀ e, decode b = .error e → decode (a ++ b) = .error (e.shift a.length)) ∧
    (∀ (code : Bytes) (l : Listing) (length : Nat), decode code = .ok l → length < code.length →
      ((∃ m, decode (code.take length) = .ok m) ↔ ∃ e ∈ l.entries, e.offset = length) ∧
      (∀ m, decode (code.take length) = .ok m →
        m = ofEntries (l.entries.filter (·.offset < length)) length) ∧
      ((¬∃ e ∈ l.entries, e.offset = length) →
        ∃ e ∈ l.entries, ∃ o p, e.IsCutInField length o p ∧
          decode (code.take length) = .error
            (if o.kind = .string then .unterminatedString p
              else .truncated e.offset e.opcode))) ∧
    ∀ code : Bytes, decodeAt code = some (decode code) := by
  refine ⟨?_, ?_, decodeAt_eq_some_decode⟩
  · intro a b l ha
    have hlength := codeLength_of_decode ha
    refine ⟨?_, fun e hb => decode_append_of_error ha hb⟩
    intro m hb
    have hjoined := decode_append_of_ok ha hb
    refine ⟨l.append m, hjoined, ?_, ?_, ?_⟩
    · rw [← hlength]
      rfl
    · rw [codeLength_of_decode hjoined, List.length_append]
    · intro offset index
      rw [getElem?_addressMap_append ha hb, hlength]
  · intro code l length h hlength
    refine ⟨⟨?_, ?_⟩, ?_, ?_⟩
    · rintro ⟨m, hm⟩
      rcases decode_take_cases h hlength with hentry | ⟨e, he, o, p, hcut, herror⟩
      · exact hentry
      · cases hm.symm.trans herror
    · rintro ⟨e, he, rfl⟩
      exact ⟨_, decode_take_of_mem h he⟩
    · intro m hm
      rcases decode_take_cases h hlength with ⟨e, he, rfl⟩ | ⟨e, he, o, p, hcut, herror⟩
      · exact Except.ok.inj (hm.symm.trans (decode_take_of_mem h he))
      · cases hm.symm.trans herror
    · intro hnone
      exact (decode_take_cases h hlength).resolve_left hnone

theorem decode_of_print_then_cut_jump_and_cut_writeFile :
    decode ([0x02, 104, 0] ++ [0x50, 1]) = .error (.truncated 3 .jump) ∧
      decode (([0x11, 97, 0, 98, 0] : Bytes).take 4) = .error (.unterminatedString 3) := by
  obtain ⟨hjoined, hcut, -⟩ := decode_self_delimiting
  have hprint : decode [0x02, 104, 0] = .ok _ :=
    decode_eq_ok_iff_encodeAll.mpr ⟨[⟨.print, [.string [104]]⟩], by decide, rfl, rfl⟩
  have hjump : decode [0x50, 1] = .error (.truncated 0 .jump) :=
    decode_eq_error_iff.mpr ⟨[], 0x50, [1], by decide, rfl, rfl⟩
  have hwriteFile : decode [0x11, 97, 0, 98, 0] = .ok _ :=
    decode_eq_ok_iff_encodeAll.mpr
      ⟨[⟨.writeFile, [.string [97], .string [98]]⟩], by decide, rfl, rfl⟩
  obtain ⟨-, -, hinside⟩ := hcut _ _ 4 hwriteFile (by decide)
  obtain ⟨e, he, o, p, hfield, herror⟩ := hinside (by decide)
  obtain rfl := List.mem_singleton.mp he
  refine ⟨(hjoined _ _ _ hprint).2 _ hjump, ?_⟩
  obtain ⟨front, back, hoperands, rfl⟩ := hfield.exists_front
  have hoperands : [.string [97], .string [98]] = front ++ o :: back := hoperands
  cases front with
  | nil =>
      obtain ⟨rfl, -⟩ := List.cons.inj hoperands
      exact absurd hfield.lt_field_end (by decide)
  | cons path front =>
      obtain ⟨rfl, hdata⟩ := List.cons.inj hoperands
      cases front with
      | nil =>
          obtain ⟨rfl, -⟩ := List.cons.inj hdata
          exact herror
      | cons => simp at hdata

end Listing

end ConsoleScript
