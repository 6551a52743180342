import ConsoleScript.Loop
import ConsoleScript.Outcome
import ConsoleScript.Proofs.Code.Emission

/-!
# The instructions of a loop

The code of a loop is known without patching: a conditional break goes over what
stands behind it in the body, and the jump behind the body goes back over the
body and itself. Emitting a loop gives the same code, unless a distance is too
long and jumps are checked.
-/

namespace ConsoleScript

open Instruction

namespace Statement

/-- The number of bytes of the code of statements. -/
def codeSize (body : List Statement) : Nat := (body.map (·.instruction.size)).sum

/-- The instruction of a statement that so many bytes of a loop's body stand behind. -/
def resolved (behind : Nat) : Statement → Instruction
  | breakIfLast value => ⟨.jumpIfLast, [.byte value, .relative (Int16.ofInt behind)]⟩
  | s => s.instruction

/-- The instructions of a loop's body: a break goes to the end of the body. -/
def resolveAll : List Statement → List Instruction
  | [] => []
  | s :: body => s.resolved (codeSize body) :: resolveAll body

/-- The jump behind a loop's body, which goes back to its start. -/
def backJump (body : List Statement) : Instruction :=
  ⟨.jump, [.relative (Int16.ofInt (-(codeSize body + 3 : Nat)))]⟩

/-- The instructions of a loop with the body. -/
def loop (body : List Statement) : List Instruction := resolveAll body ++ [backJump body]

/-- The offsets of the open jumps' fields when statements are emitted at `start`. -/
def openFields : Nat → List Statement → List Nat
  | _, [] => []
  | start, s :: body =>
    (s.placeholder? start).toList ++ openFields (start + s.instruction.size) body

@[simp] theorem codeSize_cons (s : Statement) (body : List Statement) :
    codeSize (s :: body) = s.instruction.size + codeSize body := rfl

@[simp] theorem codeSize_append (front back : List Statement) :
    codeSize (front ++ back) = codeSize front + codeSize back := by
  simp [codeSize]

theorem size_breakIfLast (value : UInt8) : (breakIfLast value).instruction.size = 4 := rfl

@[simp] theorem opcode_resolved (behind : Nat) (s : Statement) :
    (s.resolved behind).opcode = s.instruction.opcode := by
  cases s <;> rfl

/-- The distance of a jump does not change the size of its instruction. -/
@[simp] theorem size_resolved (behind : Nat) (s : Statement) :
    (s.resolved behind).size = s.instruction.size := by
  cases s with
  | breakIfLast value => simp [resolved, instruction, Instruction.size, encode, Operand.encode]
  | _ => rfl

theorem resolved_zero (s : Statement) : s.resolved 0 = s.instruction := by
  cases s <;> rfl

@[simp] theorem size_backJump (body : List Statement) : (backJump body).size = 3 := by
  simp [backJump, Instruction.size, encode, Operand.encode]

theorem resolveAll_append (front back : List Statement) :
    ∃ is, resolveAll (front ++ back) = is ++ resolveAll back ∧
      (encodeAll is).length = codeSize front ∧
      is.map opcode = front.map (·.instruction.opcode) := by
  induction front with
  | nil => exact ⟨[], rfl, rfl, rfl⟩
  | cons s front ih =>
      obtain ⟨is, hsplit, hlength, hopcodes⟩ := ih
      refine ⟨s.resolved (codeSize (front ++ back)) :: is, ?_, ?_, ?_⟩
      · rw [List.cons_append, resolveAll, hsplit, List.cons_append]
      · simp [hlength]
      · simp [hopcodes]

@[simp] theorem length_encodeAll_resolveAll (body : List Statement) :
    (encodeAll (resolveAll body)).length = codeSize body := by
  induction body with
  | nil => rfl
  | cons s body ih => simp [resolveAll, ih]

/-- A field that is open lies inside the statements' code, behind an opcode and a value. -/
theorem mem_openFields {start offset : Nat} {body : List Statement}
    (h : offset ∈ openFields start body) :
    start + 2 ≤ offset ∧ offset + 2 ≤ start + codeSize body := by
  induction body generalizing start with
  | nil => cases h
  | cons s body ih =>
      rw [openFields, List.mem_append] at h
      rcases h with hfirst | hlater
      · rw [Option.mem_toList, placeholder?_eq_some_iff] at hfirst
        obtain ⟨⟨value, rfl⟩, rfl⟩ := hfirst
        rw [codeSize_cons, size_breakIfLast]
        omega
      · have hbounds := ih hlater
        rw [codeSize_cons]
        omega

/-- Open fields are listed in the order of the code, and each is behind the end of
the one in front of it, an opcode and a value. -/
theorem pairwise_openFields (start : Nat) (body : List Statement) :
    (openFields start body).Pairwise fun offset later => offset + 4 ≤ later := by
  induction body generalizing start with
  | nil => exact List.Pairwise.nil
  | cons s body ih =>
      rw [openFields, List.pairwise_append]
      refine ⟨?_, ih _, ?_⟩
      · cases s.placeholder? start <;> simp
      · intro offset hoffset later hlater
        rw [Option.mem_toList, placeholder?_eq_some_iff] at hoffset
        obtain ⟨⟨value, rfl⟩, rfl⟩ := hoffset
        have hbounds := mem_openFields hlater
        rw [size_breakIfLast] at hbounds
        omega

/-- Open fields move with the statements. -/
theorem map_add_openFields (start shift : Nat) (body : List Statement) :
    (openFields start body).map (shift + ·) = openFields (shift + start) body := by
  induction body generalizing start with
  | nil => rfl
  | cons s body ih =>
      rw [openFields, openFields, List.map_append, ih, Nat.add_assoc]
      congr 1
      cases s <;> simp [placeholder?, Nat.add_assoc]

end Statement

open Statement

namespace LoopBody

@[simp] theorem code_add (b : LoopBody) (s : Statement) :
    (b.add s).code = b.code.emit s.instruction := by
  cases s <;> rfl

@[simp] theorem toList_placeholders_add (b : LoopBody) (s : Statement) :
    (b.add s).placeholders.toList =
      b.placeholders.toList ++ (s.placeholder? b.code.size).toList := by
  cases s <;> simp [add, emit, placeholder?]

theorem toList_code_foldl_add (b : LoopBody) (body : List Statement) :
    (body.foldl add b).code.toList =
      b.code.toList ++ encodeAll (body.map Statement.instruction) := by
  induction body generalizing b with
  | nil => simp
  | cons s body ih =>
      rw [List.foldl_cons, ih, code_add, CodeBuffer.toList_emit]
      simp

theorem placeholders_foldl_add (b : LoopBody) (body : List Statement) :
    (body.foldl add b).placeholders.toList =
      b.placeholders.toList ++ openFields b.code.size body := by
  induction body generalizing b with
  | nil => simp [openFields]
  | cons s body ih =>
      calc
        ((s :: body).foldl add b).placeholders.toList =
            (b.add s).placeholders.toList ++ openFields (b.add s).code.size body := ih _
        _ = (b.placeholders.toList ++ (s.placeholder? b.code.size).toList) ++
            openFields (b.code.size + s.instruction.size) body := by
          rw [toList_placeholders_add, code_add, CodeBuffer.size_emit]
        _ = b.placeholders.toList ++ openFields b.code.size (s :: body) := by
          rw [openFields, List.append_assoc]

/-- The code of a body is that of its statements. -/
@[simp] theorem toList_code_ofStatements (body : List Statement) :
    (ofStatements body).code.toList = encodeAll (body.map Statement.instruction) := by
  rw [ofStatements, toList_code_foldl_add]
  rfl

@[simp] theorem size_code_ofStatements (body : List Statement) :
    (ofStatements body).code.size = codeSize body := by
  rw [← CodeBuffer.length_toList, toList_code_ofStatements]
  induction body with
  | nil => rfl
  | cons s body ih => simp [ih]

/-- The placeholders of a body are the fields of its breaks. -/
theorem placeholders_ofStatements (body : List Statement) :
    (ofStatements body).placeholders.toList = openFields 0 body := by
  rw [ofStatements, placeholders_foldl_add]
  rfl

/-- The size of the largest body for which all jumps of a loop have a 16-bit form. -/
def maxSize : Nat := 2 ^ 15 - 3

/-- The distance for which the loop of a body that is too long is refused: that of
the first break if it is too long itself, and that of the jump back otherwise. -/
def excess (b : LoopBody) : Int :=
  let back : Int := -(b.code.size + 3)
  match b.placeholders.toList with
  | [] => back
  | placeholder :: _ =>
    let forward : Int := b.code.size - placeholder - 2
    if 2 ^ 15 - 1 < forward then forward else back

end LoopBody

namespace JumpRange

variable {range : JumpRange} {place : Bytes} {distance : Int}

theorem narrow_of_fits (h : range = .checked → FitsInt16 distance) :
    range.narrow place distance = .ok (Int16.ofInt distance) := by
  rw [narrow, if_neg]
  rintro ⟨hrange, hdistance⟩
  exact hdistance (h hrange)

theorem narrow_checked_of_not_fits (h : ¬FitsInt16 distance) :
    checked.narrow place distance = .error (.jumpOutOfRange distance place) := by
  rw [narrow, if_pos ⟨rfl, h⟩]

end JumpRange

namespace CodeBuffer

variable {c : CodeBuffer} {range : JumpRange} {place : Bytes} {body : List Statement}

/-- Lets the fields at all the offsets jump to a target, whether or not the
distances fit. -/
def patchAll (target : Nat) (c : CodeBuffer) (fields : List Nat) : CodeBuffer :=
  fields.foldl
    (fun c offset => c.patch offset (Int16.ofInt ((target : Int) - (offset + 2 : Nat)))) c

/-- The field of a break lies inside the code. -/
theorem hasField_break {before rest : Bytes} {value : UInt8} {m : Int16}
    (h : c.toList = before ++ (encode ⟨.jumpIfLast, [.byte value, .relative m]⟩ ++ rest)) :
    c.HasField (before.length + 2) := by
  have hsize : c.size = before.length + (4 + rest.length) := by
    rw [← length_toList, h, List.length_append, List.length_append]
    rfl
  rw [HasField, hsize]
  omega

/-- Patching the field of a break gives the break its distance. -/
theorem toList_patch_break {before rest : Bytes} {value : UInt8} {m n : Int16}
    (h : c.toList = before ++ (encode ⟨.jumpIfLast, [.byte value, .relative m]⟩ ++ rest)) :
    (c.patch (before.length + 2) n).toList =
      before ++ (encode ⟨.jumpIfLast, [.byte value, .relative n]⟩ ++ rest) := by
  have hencode : encode ⟨.jumpIfLast, [.byte value, .relative m]⟩ =
      [Opcode.jumpIfLast.toByte, value] ++ Bytes.ofInt16 m := by
    simp [encode, Operand.encode]
  rw [toList_patch (hasField_break h), h, hencode, List.take_length_add_append, Nat.add_assoc,
    List.drop_length_add_append]
  simp [encode, Operand.encode]

/-- Patching the open fields of a body that stands at the end of the code
resolves its breaks. -/
theorem toList_patchAll_openFields {before : Bytes}
    (h : c.toList = before ++ encodeAll (body.map instruction)) :
    (patchAll (before.length + codeSize body) c (openFields before.length body)).toList =
      before ++ encodeAll (resolveAll body) := by
  induction body generalizing before c with
  | nil => simpa [patchAll, openFields, resolveAll] using h
  | cons s body ih =>
      -- the statement is settled, and what is still open starts behind it
      have hstep : ∀ c' : CodeBuffer,
          c'.toList = (before ++ (s.resolved (codeSize body)).encode) ++
            encodeAll (body.map instruction) →
          (patchAll (before.length + codeSize (s :: body)) c'
            (openFields (before.length + s.instruction.size) body)).toList =
            before ++ encodeAll (resolveAll (s :: body)) := by
        intro c' hc'
        have hrest := ih hc'
        rw [List.length_append, length_encode, size_resolved, Nat.add_assoc] at hrest
        rw [codeSize_cons, hrest, resolveAll, encodeAll_cons, List.append_assoc]
      rw [List.map_cons, encodeAll_cons] at h
      cases hs : s.placeholder? before.length with
      | none =>
          have hresolved : s.resolved (codeSize body) = s.instruction := by
            cases s <;> first | rfl | cases hs
          rw [openFields, hs]
          apply hstep
          rw [h, hresolved, List.append_assoc]
      | some offset =>
          obtain ⟨⟨value, rfl⟩, rfl⟩ := placeholder?_eq_some_iff.mp hs
          have hdistance : ((before.length + codeSize (breakIfLast value :: body) : Nat) : Int) -
              (before.length + 2 + 2 : Nat) = codeSize body := by
            rw [codeSize_cons, size_breakIfLast]
            omega
          rw [openFields, hs]
          show (patchAll _ (c.patch _ _) _).toList = _
          apply hstep
          rw [toList_patch_break h, hdistance, List.append_assoc]
          rfl

/-- Resolving a field patches it. -/
theorem resolve_eq_ok_iff {d : CodeBuffer} {target offset : Nat} :
    resolve range place target c offset = .ok d ↔
      ∃ distance, range.narrow place ((target : Int) - (offset + 2 : Nat)) = .ok distance ∧
        d = c.patch offset distance := by
  rw [resolve, bind_eq_ok_iff]
  constructor
  · rintro ⟨distance, hnarrow, h⟩
    cases h
    exact ⟨distance, hnarrow, rfl⟩
  · rintro ⟨distance, hnarrow, rfl⟩
    exact ⟨distance, hnarrow, rfl⟩

theorem foldlM_resolve_of_fits {target : Nat} {fields : List Nat}
    (h : ∀ offset ∈ fields, range = .checked → FitsInt16 ((target : Int) - (offset + 2 : Nat))) :
    fields.foldlM (resolve range place target) c = .ok (patchAll target c fields) := by
  induction fields generalizing c with
  | nil => rfl
  | cons offset fields ih =>
      have hfirst : resolve range place target c offset =
          .ok (c.patch offset (Int16.ofInt ((target : Int) - (offset + 2 : Nat)))) := by
        rw [resolve, JumpRange.narrow_of_fits (h offset List.mem_cons_self)]
        rfl
      rw [List.foldlM_cons, hfirst]
      exact ih fun later hlater => h later (List.mem_cons_of_mem _ hlater)

/-- The distance of the jump back over a body of the given size. -/
theorem distance_backJump {start : Nat} (hsize : c.size = start + codeSize body) :
    (start : Int) - ((c.pushOpcode .jump).size + 2 : Nat) = -(codeSize body + 3 : Nat) := by
  have hopcode : (c.pushOpcode .jump).size = c.size + 1 := by
    rw [← length_toList, toList_pushOpcode, List.length_append, length_toList]
    rfl
  omega

theorem emitJumpTo_of_fits {start : Nat} (hsize : c.size = start + codeSize body)
    (h : range = .checked → codeSize body ≤ LoopBody.maxSize) :
    c.emitJumpTo range place start = .ok (c.emit (backJump body)) := by
  rw [emitJumpTo, distance_backJump hsize, JumpRange.narrow_of_fits]
  · rfl
  · intro hrange
    have hle := h hrange
    rw [LoopBody.maxSize] at hle
    rw [FitsInt16]
    omega

theorem emitJumpTo_checked_of_lt {start : Nat} (hsize : c.size = start + codeSize body)
    (h : LoopBody.maxSize < codeSize body) :
    c.emitJumpTo .checked place start =
      .error (.jumpOutOfRange (-(codeSize body + 3 : Nat)) place) := by
  have hfits : ¬FitsInt16 (-(codeSize body + 3 : Nat) : Int) := by
    rw [LoopBody.maxSize] at h
    rw [FitsInt16]
    omega
  rw [emitJumpTo, distance_backJump hsize, JumpRange.narrow_checked_of_not_fits hfits]
  rfl

/-- Emitting a loop is splicing its body, resolving the fields, which have moved with it, and
jumping back. -/
theorem emitLoop_eq_foldlM_bind {b : LoopBody} : c.emitLoop range place b =
    (b.placeholders.toList.map (c.size + ·)).foldlM (resolve range place (c.size + b.code.size))
      (c ++ b.code) >>= emitJumpTo range place c.size := by
  rw [emitLoop, List.foldlM_map]

/-- Emitting a loop is patching the fields that are open behind its start and
jumping back. -/
theorem emitLoop_eq_bind :
    c.emitLoop range place (.ofStatements body) =
      (openFields c.size body).foldlM (resolve range place (c.size + codeSize body))
        (c ++ (LoopBody.ofStatements body).code) >>= emitJumpTo range place c.size := by
  rw [emitLoop_eq_foldlM_bind, LoopBody.placeholders_ofStatements, map_add_openFields,
    Nat.add_zero, LoopBody.size_code_ofStatements]

/-- If the distances of the breaks fit, only the jump back may fail. -/
theorem emitLoop_of_breaks_fit (place : Bytes)
    (h : ∀ offset ∈ openFields c.size body, range = .checked →
      FitsInt16 (((c.size + codeSize body : Nat) : Int) - (offset + 2 : Nat))) :
    ∃ patched : CodeBuffer, c.emitLoop range place (.ofStatements body) =
        patched.emitJumpTo range place c.size ∧
      patched.toList = c.toList ++ encodeAll (resolveAll body) ∧
      patched.size = c.size + codeSize body := by
  have hcode : (c ++ (LoopBody.ofStatements body).code).toList =
      c.toList ++ encodeAll (body.map instruction) := by
    rw [toList_append, LoopBody.toList_code_ofStatements]
  have hpatched := toList_patchAll_openFields hcode
  rw [length_toList] at hpatched
  refine ⟨_, ?_, hpatched, ?_⟩
  · rw [emitLoop_eq_bind, foldlM_resolve_of_fits h]
    rfl
  · rw [← length_toList, hpatched, List.length_append, length_toList,
      length_encodeAll_resolveAll]

/-- A loop whose distances fit adds its instructions. -/
theorem emitLoop_of_fits (h : range = .checked → codeSize body ≤ LoopBody.maxSize) :
    c.emitLoop range place (.ofStatements body) = .ok (c.emitAll (loop body)) := by
  have hbreaks : ∀ offset ∈ openFields c.size body, range = .checked →
      FitsInt16 (((c.size + codeSize body : Nat) : Int) - (offset + 2 : Nat)) := by
    intro offset hoffset hrange
    have hbounds := mem_openFields hoffset
    have hle := h hrange
    rw [LoopBody.maxSize] at hle
    rw [FitsInt16]
    omega
  obtain ⟨patched, hloop, hpatched, hsize⟩ := emitLoop_of_breaks_fit place hbreaks
  rw [hloop, emitJumpTo_of_fits hsize h]
  congr 1
  apply eq_of_toList
  · rw [toList_emit, hpatched, toList_emitAll, loop, encodeAll_append, List.append_assoc]
    simp
  · rw [lastOpcode_emit, lastOpcode_emitAll, loop, List.getLast?_concat]
    rfl

/-- The first break goes farthest: if its distance fits, those of all breaks do. -/
theorem fits_of_first_fits {start : Nat}
    (h : ∀ placeholder ∈ (openFields 0 body).head?,
      (codeSize body : Int) - placeholder - 2 ≤ 2 ^ 15 - 1) :
    ∀ offset ∈ openFields start body,
      FitsInt16 (((start + codeSize body : Nat) : Int) - (offset + 2 : Nat)) := by
  intro offset hoffset
  have hfields := map_add_openFields 0 start body
  rw [Nat.add_zero] at hfields
  have hbounds := mem_openFields hoffset
  have horder := pairwise_openFields start body
  rw [← hfields] at hoffset horder
  cases hopen : openFields 0 body with
  | nil =>
      rw [hopen] at hoffset
      cases hoffset
  | cons placeholder later =>
      rw [hopen, List.map_cons] at hoffset horder
      have hfirst := h placeholder (by rw [hopen]; rfl)
      rw [FitsInt16]
      rcases List.mem_cons.mp hoffset with rfl | hlater
      · omega
      · have hfarther := List.rel_of_pairwise_cons horder hlater
        omega

/-- A checked loop whose first break fits is refused for the jump back. -/
theorem emitLoop_checked_of_first_fits (h : LoopBody.maxSize < codeSize body)
    (hfirst : ∀ placeholder ∈ (openFields 0 body).head?,
      (codeSize body : Int) - placeholder - 2 ≤ 2 ^ 15 - 1) :
    c.emitLoop .checked place (.ofStatements body) =
      .error (.jumpOutOfRange (-(codeSize body + 3 : Nat)) place) := by
  have hbreaks : ∀ offset ∈ openFields c.size body, JumpRange.checked = .checked →
      FitsInt16 (((c.size + codeSize body : Nat) : Int) - (offset + 2 : Nat)) :=
    fun offset hoffset _ => fits_of_first_fits hfirst offset hoffset
  obtain ⟨patched, hloop, -, hsize⟩ := emitLoop_of_breaks_fit place hbreaks
  rw [hloop, emitJumpTo_checked_of_lt hsize h]

/-- A checked loop that is too long is refused, for its first break if that is too
long and for the jump back otherwise. -/
theorem emitLoop_checked_of_lt (h : LoopBody.maxSize < codeSize body) :
    c.emitLoop .checked place (.ofStatements body) =
      .error (.jumpOutOfRange (LoopBody.ofStatements body).excess place) := by
  rw [LoopBody.excess, LoopBody.placeholders_ofStatements, LoopBody.size_code_ofStatements]
  cases hopen : openFields 0 body with
  | nil =>
      rw [emitLoop_checked_of_first_fits h (by rw [hopen]; simp)]
      rfl
  | cons placeholder later =>
      by_cases hlong : 2 ^ 15 - 1 < (codeSize body : Int) - placeholder - 2
      · have hfields := map_add_openFields 0 c.size body
        rw [Nat.add_zero] at hfields
        have hdistance : ((c.size + codeSize body : Nat) : Int) -
            (c.size + placeholder + 2 : Nat) = codeSize body - placeholder - 2 := by omega
        have hfits : ¬FitsInt16 ((codeSize body : Int) - placeholder - 2) := by
          rw [FitsInt16]
          omega
        rw [emitLoop_eq_bind, ← hfields, hopen, List.map_cons, List.foldlM_cons, resolve,
          hdistance, JumpRange.narrow_checked_of_not_fits hfits]
        simp only [if_pos hlong]
        rfl
      · have hfirst : ∀ offset ∈ (openFields 0 body).head?,
            (codeSize body : Int) - offset - 2 ≤ 2 ^ 15 - 1 := by
          intro offset hoffset
          rw [hopen, List.head?_cons, Option.mem_some_iff] at hoffset
          subst hoffset
          exact Int.not_lt.mp hlong
        rw [emitLoop_checked_of_first_fits h hfirst]
        simp only [if_neg hlong]
        rfl

end CodeBuffer

end ConsoleScript
