import ConsoleScript.Outcome
import ConsoleScript.Proofs.Code.Loop
import Mathlib.Data.List.Nodup

/-!
# The placeholders of a loop

While the body of a loop is emitted, the fields of its breaks are kept as placeholders. Emitting
the loop overwrites each of them once, behind the code that is there already, and writes nothing
else into that code or into the body.

## Implementation notes

`CodeBuffer.emitLoop` neither tells which fields it overwrites nor could it fail at a field that
lies outside the code. `CodeBuffer.emitLoopLogged` does both; otherwise it is the same.
-/

namespace ConsoleScript

open Instruction Statement

namespace Statement

/-- The statement is a conditional break. -/
def isBreak : Statement → Bool
  | breakIfLast _ => true
  | _ => false

/-- The number of conditional breaks among statements. -/
def breakCount (body : List Statement) : Nat := body.countP isBreak

variable {start offset : Nat} {body : List Statement}

theorem openFields_append (start : Nat) (front back : List Statement) :
    openFields start (front ++ back) =
      openFields start front ++ openFields (start + codeSize front) back := by
  induction front generalizing start with
  | nil => rfl
  | cons s front ih =>
      rw [List.cons_append, openFields, openFields, ih, codeSize_cons, List.append_assoc,
        Nat.add_assoc]

/-- Each break has one field, and no other statement has any. -/
theorem length_openFields (start : Nat) (body : List Statement) :
    (openFields start body).length = breakCount body := by
  induction body generalizing start with
  | nil => rfl
  | cons s body ih =>
      have hfirst : (s.placeholder? start).toList.length = if s.isBreak then 1 else 0 := by
        cases s <;> rfl
      rw [openFields, List.length_append, ih, hfirst, breakCount, breakCount, List.countP_cons,
        Nat.add_comm]

/-- The fields of breaks are numbered as the breaks are. -/
theorem getElem?_openFields_of_break (start : Nat) (front back : List Statement)
    (value : UInt8) :
    (openFields start (front ++ .breakIfLast value :: back))[breakCount front]? =
      some (start + codeSize front + 2) := by
  rw [openFields_append, List.getElem?_append_right (length_openFields start front).le,
    length_openFields, Nat.sub_self]
  rfl

/-- Every open field is that of a break. -/
theorem exists_break_of_mem_openFields (h : offset ∈ openFields start body) :
    ∃ front value back, body = front ++ .breakIfLast value :: back ∧
      offset = start + codeSize front + 2 := by
  induction body generalizing start with
  | nil => cases h
  | cons s body ih =>
      rw [openFields, List.mem_append] at h
      rcases h with hfirst | hlater
      · rw [Option.mem_toList, placeholder?_eq_some_iff] at hfirst
        obtain ⟨⟨value, rfl⟩, rfl⟩ := hfirst
        exact ⟨[], value, body, rfl, rfl⟩
      · obtain ⟨front, value, back, rfl, rfl⟩ := ih hlater
        exact ⟨s :: front, value, back, rfl, by rw [codeSize_cons, Nat.add_assoc start]⟩

end Statement

namespace LoopBody

/-- The placeholders of a body are the fields of the breaks among the statements. There is one
for each break, in their order, behind the opcode and the value that the break has added to the
code of the statements in front of it, and it is zero. -/
structure IsOpen (b : LoopBody) (body : List Statement) : Prop where
  size_placeholders : b.placeholders.size = breakCount body
  placeholder_of_break : ∀ front value back, body = front ++ .breakIfLast value :: back →
    b.placeholders[breakCount front]? = some ((ofStatements front).code.size + 2) ∧
      ∃ behind, b.code.toList = (ofStatements front).code.toList ++
        ([Opcode.jumpIfLast.toByte, value, 0, 0] ++ behind)
  bounds : ∀ p ∈ b.placeholders.toList, 2 ≤ p ∧ p + 2 ≤ b.code.size
  bytes : ∀ p ∈ b.placeholders.toList,
    b.code.toList[p - 2]? = some Opcode.jumpIfLast.toByte ∧
      b.code.toList[p]? = some 0 ∧ b.code.toList[p + 1]? = some 0
  apart : b.placeholders.toList.Pairwise fun p later => p + 4 ≤ later

/-- The code of a body around one of its breaks. -/
theorem toList_code_of_break (front back : List Statement) (value : UInt8) :
    (ofStatements (front ++ .breakIfLast value :: back)).code.toList =
      (ofStatements front).code.toList ++
        ([Opcode.jumpIfLast.toByte, value, 0, 0] ++ encodeAll (back.map instruction)) := by
  rw [toList_code_ofStatements, toList_code_ofStatements, List.map_append, encodeAll_append]
  rfl

/-- The placeholders of a body that is emitted statement by statement. -/
theorem isOpen_ofStatements (body : List Statement) : (ofStatements body).IsOpen body where
  size_placeholders := by
    rw [← Array.length_toList, placeholders_ofStatements, length_openFields]
  placeholder_of_break := by
    rintro front value back rfl
    refine ⟨?_, _, toList_code_of_break front back value⟩
    rw [← Array.getElem?_toList, placeholders_ofStatements, getElem?_openFields_of_break,
      Nat.zero_add, size_code_ofStatements]
  bounds p hp := by
    rw [placeholders_ofStatements] at hp
    rw [size_code_ofStatements]
    simpa using mem_openFields hp
  bytes p hp := by
    rw [placeholders_ofStatements] at hp
    obtain ⟨front, value, back, rfl, rfl⟩ := exists_break_of_mem_openFields hp
    have hfront : 0 + codeSize front = (ofStatements front).code.toList.length := by
      rw [CodeBuffer.length_toList, size_code_ofStatements, Nat.zero_add]
    rw [toList_code_of_break, hfront]
    simp [Nat.add_assoc]
  apart := by
    rw [placeholders_ofStatements]
    exact pairwise_openFields 0 body

end LoopBody

namespace CodeBuffer

variable {c d : CodeBuffer} {range : JumpRange} {place : Bytes} {target offset k : Nat}
  {n : Int16} {fields : List Nat}

/-- Lets the fields at the offsets jump to a target, one after the other, and tells which of
them have been overwritten. There is no result if one of them does not lie inside the buffer. -/
def resolveEach (range : JumpRange) (place : Bytes) (target : Nat) :
    CodeBuffer → List Nat → Option (Except Fault CodeBuffer × List Nat)
  | c, [] => some (.ok c, [])
  | c, offset :: later =>
    match range.narrow place ((target : Int) - (offset + 2 : Nat)) with
    | .error e => some (.error e, [])
    | .ok distance => do
      let d ← c.patch? offset distance
      let (result, overwritten) ← resolveEach range place target d later
      return (result, offset :: overwritten)

/-- Adds a loop as `emitLoop` does, and tells which fields have been overwritten. There is no
result if one of them does not lie inside the code. -/
def emitLoopLogged (range : JumpRange) (place : Bytes) (c : CodeBuffer) (body : LoopBody) :
    Option (Except Fault CodeBuffer × List Nat) := do
  let (patched, overwritten) ← resolveEach range place (c.size + body.code.size)
    (c ++ body.code) (body.placeholders.toList.map (c.size + ·))
  return (patched >>= emitJumpTo range place c.size, overwritten)

/-- A patch leaves the other fields inside the buffer. -/
theorem hasField_patch : (c.patch offset n).HasField k ↔ c.HasField k := by
  rw [HasField, HasField, size_patch]

/-- A patch keeps the bytes outside its field. -/
theorem getElem?_toList_patch (h : c.HasField offset) (hlow : k ≠ offset)
    (hhigh : k ≠ offset + 1) : (c.patch offset n).toList[k]? = c.toList[k]? := by
  have hlength : (c.toList.take offset).length = offset := by
    rw [HasField] at h
    rw [List.length_take, length_toList]
    omega
  rw [toList_patch h, List.append_assoc]
  rcases Nat.lt_or_ge k offset with hlt | hge
  · rw [List.getElem?_append_left (by omega), List.getElem?_take_of_lt hlt]
  · rw [List.getElem?_append_right (by omega), List.getElem?_append_right, List.getElem?_drop,
      hlength, Bytes.length_ofInt16]
    · congr 1
      omega
    · rw [hlength, Bytes.length_ofInt16]
      omega

/-- If all the fields lie inside the buffer, none is missed, and they are overwritten in their
order: each of them once if resolving succeeds, and those in front of the one for which it fails
otherwise. -/
theorem resolveEach_of_hasField (range : JumpRange) (place : Bytes) (target : Nat)
    (h : ∀ offset ∈ fields, c.HasField offset) :
    ∃ overwritten, resolveEach range place target c fields =
        some (fields.foldlM (resolve range place target) c, overwritten) ∧
      overwritten <+: fields ∧
      ∀ d, fields.foldlM (resolve range place target) c = .ok d → overwritten = fields := by
  induction fields generalizing c with
  | nil => exact ⟨[], rfl, List.nil_prefix, fun _ _ => rfl⟩
  | cons offset later ih =>
      rw [List.foldlM_cons, resolveEach]
      cases hnarrow : range.narrow place ((target : Int) - (offset + 2 : Nat)) with
      | error e =>
          have hresolve : resolve range place target c offset = .error e := by
            rw [resolve, hnarrow]
            rfl
          rw [hresolve]
          refine ⟨[], rfl, List.nil_prefix, ?_⟩
          intro d hd
          cases hd
      | ok distance =>
          have hresolve : resolve range place target c offset = .ok (c.patch offset distance) :=
            resolve_eq_ok_iff.mpr ⟨distance, hnarrow, rfl⟩
          have hpatch : c.patch? offset distance = some (c.patch offset distance) :=
            patch?_eq_some_iff.mpr ⟨h offset List.mem_cons_self, rfl⟩
          have hlater : ∀ x ∈ later, (c.patch offset distance).HasField x :=
            fun x hx => hasField_patch.mpr (h x (List.mem_cons_of_mem offset hx))
          obtain ⟨overwritten, heach, hprefix, hall⟩ := ih hlater
          rw [hresolve]
          refine ⟨offset :: overwritten, ?_, List.cons_prefix_cons.mpr ⟨rfl, hprefix⟩, ?_⟩
          · simp only [hpatch, Option.bind_eq_bind, Option.bind_some, heach]
            rfl
          · intro d hd
            rw [hall d hd]

/-- Resolving fields keeps the size of a buffer and the bytes outside the fields. -/
theorem frame_of_foldlM_resolve (h : ∀ offset ∈ fields, c.HasField offset)
    (hd : fields.foldlM (resolve range place target) c = .ok d) :
    d.size = c.size ∧
      ∀ k, (∀ offset ∈ fields, k ≠ offset ∧ k ≠ offset + 1) → d.toList[k]? = c.toList[k]? := by
  induction fields generalizing c with
  | nil =>
      cases hd
      exact ⟨rfl, fun _ _ => rfl⟩
  | cons offset later ih =>
      rw [List.foldlM_cons] at hd
      obtain ⟨c', hresolve, hd⟩ := bind_eq_ok_iff.mp hd
      obtain ⟨distance, -, rfl⟩ := resolve_eq_ok_iff.mp hresolve
      have hlater : ∀ x ∈ later, (c.patch offset distance).HasField x :=
        fun x hx => hasField_patch.mpr (h x (List.mem_cons_of_mem offset hx))
      obtain ⟨hsize, hkept⟩ := ih hlater hd
      refine ⟨hsize.trans size_patch, ?_⟩
      intro k hk
      obtain ⟨hlow, hhigh⟩ := hk offset List.mem_cons_self
      rw [hkept k fun x hx => hk x (List.mem_cons_of_mem offset hx),
        getElem?_toList_patch (h offset List.mem_cons_self) hlow hhigh]

/-- A jump is added behind what the buffer holds. -/
theorem toList_of_emitJumpTo (h : c.emitJumpTo range place target = .ok d) :
    ∃ low high, d.toList = c.toList ++ [Opcode.jump.toByte, low, high] := by
  obtain ⟨distance, -, hd⟩ := bind_eq_ok_iff.mp h
  obtain ⟨low, high, hfield, -⟩ := Bytes.toInt16_ofInt16 distance
  cases hd
  refine ⟨low, high, ?_⟩
  rw [toList_pushInt16, toList_pushOpcode, hfield, List.append_assoc]
  rfl

/-! ### Loops -/

variable {b : LoopBody}

/-- The placeholders of a body lie inside the code behind which the body is spliced. -/
theorem hasField_append (h : ∀ p ∈ b.placeholders.toList, p + 2 ≤ b.code.size) :
    ∀ offset ∈ b.placeholders.toList.map (c.size + ·), (c ++ b.code).HasField offset := by
  intro offset hoffset
  obtain ⟨p, hp, rfl⟩ := List.mem_map.mp hoffset
  have hle := h p hp
  rw [HasField, size_append]
  omega

/-- Adding a loop misses no field of the body. It overwrites each of them once if it succeeds,
and those in front of the one for which it fails otherwise. -/
theorem emitLoopLogged_eq_some (range : JumpRange) (place : Bytes) (c : CodeBuffer)
    (h : ∀ p ∈ b.placeholders.toList, p + 2 ≤ b.code.size) :
    ∃ overwritten, c.emitLoopLogged range place b =
        some (c.emitLoop range place b, overwritten) ∧
      overwritten <+: b.placeholders.toList.map (c.size + ·) ∧
      ∀ d, c.emitLoop range place b = .ok d →
        overwritten = b.placeholders.toList.map (c.size + ·) := by
  obtain ⟨overwritten, heach, hprefix, hall⟩ :=
    resolveEach_of_hasField range place (c.size + b.code.size) (hasField_append (c := c) h)
  refine ⟨overwritten, ?_, hprefix, ?_⟩
  · rw [emitLoopLogged, heach, emitLoop_eq_foldlM_bind]
    rfl
  · intro d hd
    rw [emitLoop_eq_foldlM_bind] at hd
    obtain ⟨patched, hpatched, -⟩ := bind_eq_ok_iff.mp hd
    exact hall patched hpatched

/-- Behind a loop stand the code in front of it, the body with other bytes in its fields only,
and the jump. -/
theorem frame_of_emitLoop (h : ∀ p ∈ b.placeholders.toList, p + 2 ≤ b.code.size)
    (hd : c.emitLoop range place b = .ok d) :
    ∃ patched low high, d.toList = c.toList ++ (patched ++ [Opcode.jump.toByte, low, high]) ∧
      patched.length = b.code.size ∧
      ∀ k, (∀ p ∈ b.placeholders.toList, k ≠ p ∧ k ≠ p + 1) →
        patched[k]? = b.code.toList[k]? := by
  rw [emitLoop_eq_foldlM_bind] at hd
  obtain ⟨resolved, hresolved, hjump⟩ := bind_eq_ok_iff.mp hd
  obtain ⟨low, high, hcode⟩ := toList_of_emitJumpTo hjump
  obtain ⟨hsize, hkept⟩ := frame_of_foldlM_resolve (hasField_append h) hresolved
  have hlength : resolved.toList.length = c.size + b.code.size := by
    rw [length_toList, hsize, size_append]
  -- a field of the body is behind all that was there
  have hfront : resolved.toList.take c.size = c.toList := by
    apply List.ext_getElem?
    intro k
    rcases Nat.lt_or_ge k c.size with hlt | hge
    · rw [List.getElem?_take_of_lt hlt, hkept k, toList_append,
        List.getElem?_append_left (by rwa [length_toList])]
      intro offset hoffset
      obtain ⟨p, -, rfl⟩ := List.mem_map.mp hoffset
      omega
    · rw [List.getElem?_eq_none (by rw [List.length_take]; omega),
        List.getElem?_eq_none (by rwa [length_toList])]
  refine ⟨resolved.toList.drop c.size, low, high, ?_, ?_, ?_⟩
  · rw [hcode, ← List.append_assoc, ← hfront, List.take_append_drop]
  · rw [List.length_drop, hlength, Nat.add_sub_cancel_left]
  · intro k hk
    rw [List.getElem?_drop, hkept (c.size + k), toList_append,
      List.getElem?_append_right (by rw [length_toList]; exact Nat.le_add_right _ _),
      length_toList, Nat.add_sub_cancel_left]
    intro offset hoffset
    obtain ⟨p, hp, rfl⟩ := List.mem_map.mp hoffset
    have hout := hk p hp
    omega

end CodeBuffer

namespace LoopBody

/-- Whatever statements a loop's body has and whatever code it is put behind: the placeholders
are the fields of the breaks, as `IsOpen` says. When the loop is added, all the fields that are
overwritten lie inside the code; they are overwritten in their order and at most once, and each of
them once if the distances are accepted. The code is then what was there, followed by the body,
in which only the fields have changed, and by the jump. -/
theorem placeholders_overwritten_once (range : JumpRange) (place : Bytes) (c : CodeBuffer)
    {b : LoopBody} {body : List Statement} (hb : b = ofStatements body) :
    b.IsOpen body ∧
      ∃ overwritten, c.emitLoopLogged range place b =
          some (c.emitLoop range place b, overwritten) ∧
        overwritten <+: b.placeholders.toList.map (c.size + ·) ∧
        ∀ d, c.emitLoop range place b = .ok d →
          overwritten = b.placeholders.toList.map (c.size + ·) ∧
          (∀ p ∈ b.placeholders.toList, overwritten.count (c.size + p) = 1) ∧
          ∃ patched low high,
            d.toList = c.toList ++ (patched ++ [Opcode.jump.toByte, low, high]) ∧
            patched.length = b.code.size ∧
            ∀ k, (∀ p ∈ b.placeholders.toList, k ≠ p ∧ k ≠ p + 1) →
              patched[k]? = b.code.toList[k]? := by
  have hopen : b.IsOpen body := hb ▸ isOpen_ofStatements body
  have hbounds : ∀ p ∈ b.placeholders.toList, p + 2 ≤ b.code.size :=
    fun p hp => (hopen.bounds p hp).2
  obtain ⟨overwritten, hlogged, hprefix, hall⟩ :=
    CodeBuffer.emitLoopLogged_eq_some range place c hbounds
  have hnodup : (b.placeholders.toList.map (c.size + ·)).Nodup := by
    rw [List.Nodup, List.pairwise_map]
    apply hopen.apart.imp
    intro first later hle
    omega
  refine ⟨hopen, overwritten, hlogged, hprefix, ?_⟩
  intro d hd
  refine ⟨hall d hd, ?_, CodeBuffer.frame_of_emitLoop hbounds hd⟩
  intro p hp
  rw [hall d hd]
  exact List.nodup_iff_count_eq_one.mp hnodup _ (List.mem_map.mpr ⟨p, hp, rfl⟩)

/-- Two breaks around a text, behind another text: both fields are overwritten, the first with the
distance over the text and the second break. -/
theorem placeholders_overwritten_once_of_two_breaks :
    CodeBuffer.emitLoopLogged .checked [] (.emit {} (print [97]).instruction)
        (ofStatements [breakIfLast 3, print [98], breakIfLast 4]) =
      some (.ok ⟨#[0x02, 97, 0, 0x51, 3, 7, 0, 0x02, 98, 0, 0x51, 4, 0, 0, 0x50, 0xF2, 0xFF],
        some .jump⟩, [5, 12]) := by
  obtain ⟨-, overwritten, hlogged, -, hall⟩ := placeholders_overwritten_once .checked []
    (.emit {} (print [97]).instruction)
    (rfl : _ = ofStatements [breakIfLast 3, print [98], breakIfLast 4])
  have hloop : CodeBuffer.emitLoop .checked [] (.emit {} (print [97]).instruction)
      (ofStatements [breakIfLast 3, print [98], breakIfLast 4]) =
        .ok ⟨#[0x02, 97, 0, 0x51, 3, 7, 0, 0x02, 98, 0, 0x51, 4, 0, 0, 0x50, 0xF2, 0xFF],
          some .jump⟩ := by decide
  obtain ⟨hoverwritten, -, -⟩ := hall _ hloop
  rw [hlogged, hloop, hoverwritten]
  rfl

end LoopBody

end ConsoleScript
