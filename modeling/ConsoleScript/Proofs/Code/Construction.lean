import ConsoleScript.Proofs.Code.Block

/-!
# Constructions of code

Code is put together by adding statements and jumps to a buffer, by splicing one buffer behind
another, and by patching the fields of breaks. However that is done, the buffer holds the
instructions that were added, in their order, with the distances that were patched in last. The
last of them is remembered, so the file of an executable gets an exit exactly if it needs one.

## Implementation notes

A construction is a tree, since a buffer that is spliced in has a construction of its own; the two
may be the same. Fields are told apart by their number, so that a patch finds the offset in the
list that the buffer's user keeps, as a compiler does.
-/

namespace ConsoleScript

open Instruction

/-- What is added to a buffer at once. -/
inductive Emission where
  | statement (s : Statement)
  | jump (distance : Int16)
deriving DecidableEq, Repr

namespace Emission

/-- Adds the instruction, and tells where the field of a break is. -/
def emit (c : CodeBuffer) : Emission → CodeBuffer × Option Nat
  | statement s => s.emit c
  | jump distance => ((c.pushOpcode .jump).pushInt16 distance, none)

/-- The opcode of the instruction. -/
def opcode : Emission → Opcode
  | statement s => s.instruction.opcode
  | jump _ => .jump

/-- The instruction, which has the distance in its field if it is a break. -/
def instruction (distance : Int16) : Emission → Instruction
  | statement (.breakIfLast value) => ⟨.jumpIfLast, [.byte value, .relative distance]⟩
  | statement s => s.instruction
  | jump n => ⟨.jump, [.relative n]⟩

/-- The number of fields that are left to be patched. -/
def fieldCount : Emission → Nat
  | statement (.breakIfLast _) => 1
  | _ => 0

/-- The instructions of emissions whose breaks have these distances, in their order. -/
def instructionsOf : List Emission → List Int16 → List Instruction
  | [], _ => []
  | e :: es, distances =>
    e.instruction (distances.headD 0) :: instructionsOf es (distances.drop e.fieldCount)

/-- The number of fields in emissions. -/
def fieldCountOf (es : List Emission) : Nat := (es.map fieldCount).sum

/-- The number of bytes of the code of emissions. -/
def codeSize (es : List Emission) : Nat := (es.map fun e => (e.instruction 0).size).sum

/-- The field with the number is at the offset: behind the opcode and the value of a break. -/
def FieldAt (es : List Emission) (number offset : Nat) : Prop :=
  ∃ front value back, es = front ++ statement (.breakIfLast value) :: back ∧
    fieldCountOf front = number ∧ codeSize front + 2 = offset

variable {c : CodeBuffer} {e : Emission} {es fs : List Emission} {number offset : Nat}

theorem fst_emit (e : Emission) (c : CodeBuffer) : (e.emit c).1 = c.emit (e.instruction 0) := by
  cases e with
  | statement s => cases s <;> rfl
  | jump n => rfl

/-- Only a break has a field, and only in its instruction a distance matters. -/
theorem break_or_fieldCount_eq_zero (e : Emission) :
    (∃ value, e = statement (.breakIfLast value)) ∨
      e.fieldCount = 0 ∧ (∀ c, (e.emit c).2 = none) ∧ ∀ n, e.instruction n = e.instruction 0 := by
  cases e with
  | jump n => exact .inr ⟨rfl, fun _ => rfl, fun _ => rfl⟩
  | statement s =>
      cases s with
      | breakIfLast value => exact .inl ⟨value, rfl⟩
      | _ => exact .inr ⟨rfl, fun _ => rfl, fun _ => rfl⟩

theorem opcode_instruction (n : Int16) (e : Emission) : (e.instruction n).opcode = e.opcode := by
  cases e with
  | statement s => cases s <;> rfl
  | jump m => rfl

theorem size_instruction (n : Int16) (e : Emission) :
    (e.instruction n).size = (e.instruction 0).size := by
  rcases break_or_fieldCount_eq_zero e with ⟨value, rfl⟩ | ⟨-, -, hinstruction⟩
  · rfl
  · rw [hinstruction]

theorem opcode_eq_exit_iff : e.opcode = .exit ↔ e = statement .exit := by
  cases e with
  | statement s => cases s <;> simp [opcode, Statement.instruction]
  | jump n => simp [opcode]

theorem fieldCountOf_cons : fieldCountOf (e :: es) = e.fieldCount + fieldCountOf es := rfl

@[simp] theorem fieldCountOf_append :
    fieldCountOf (es ++ fs) = fieldCountOf es + fieldCountOf fs := by
  simp [fieldCountOf]

@[simp] theorem codeSize_append : codeSize (es ++ fs) = codeSize es + codeSize fs := by
  simp [codeSize]

theorem instructionsOf_singleton (e : Emission) :
    instructionsOf [e] (List.replicate e.fieldCount 0) = [e.instruction 0] := by
  rcases break_or_fieldCount_eq_zero e with ⟨value, rfl⟩ | ⟨-, -, hinstruction⟩
  · rfl
  · rw [instructionsOf, hinstruction]
    rfl

theorem map_opcode_instructionsOf (es : List Emission) (distances : List Int16) :
    (instructionsOf es distances).map Instruction.opcode = es.map opcode := by
  induction es generalizing distances with
  | nil => rfl
  | cons e es ih => rw [instructionsOf, List.map_cons, List.map_cons, ih, opcode_instruction]

theorem length_encodeAll_instructionsOf (es : List Emission) (distances : List Int16) :
    (encodeAll (instructionsOf es distances)).length = codeSize es := by
  induction es generalizing distances with
  | nil => rfl
  | cons e es ih =>
      rw [instructionsOf, encodeAll_cons, List.length_append, length_encode, ih, size_instruction]
      rfl

/-- Emissions take as many distances as they have breaks, and leave the others to what is behind
them. -/
theorem instructionsOf_append {front back : List Int16} (h : front.length = fieldCountOf es) :
    instructionsOf (es ++ fs) (front ++ back) =
      instructionsOf es front ++ instructionsOf fs back := by
  induction es generalizing front with
  | nil =>
      rw [List.eq_nil_of_length_eq_zero h]
      rfl
  | cons e es ih =>
      rcases break_or_fieldCount_eq_zero e with ⟨value, rfl⟩ | ⟨hcount, -, hinstruction⟩
      · have hcount : fieldCount (statement (.breakIfLast value)) = 1 := rfl
        rw [fieldCountOf_cons, hcount] at h
        cases front with
        | nil =>
            rw [List.length_nil] at h
            omega
        | cons n front =>
            have htail : front.length = fieldCountOf es := by
              rw [List.length_cons] at h
              omega
            exact congrArg (_ :: ·) (ih htail)
      · rw [fieldCountOf_cons, hcount, Nat.zero_add] at h
        rw [List.cons_append, instructionsOf, instructionsOf, hcount, List.drop_zero,
          List.drop_zero, hinstruction, hinstruction (front.headD 0), ih h]
        rfl

theorem FieldAt.append_right (h : FieldAt es number offset) (fs : List Emission) :
    FieldAt (es ++ fs) number offset := by
  obtain ⟨front, value, back, rfl, hnumber, hoffset⟩ := h
  exact ⟨front, value, back ++ fs, by rw [List.append_assoc, List.cons_append], hnumber, hoffset⟩

theorem FieldAt.append_left (h : FieldAt fs number offset) (es : List Emission) :
    FieldAt (es ++ fs) (fieldCountOf es + number) (codeSize es + offset) := by
  obtain ⟨front, value, back, rfl, rfl, rfl⟩ := h
  refine ⟨es ++ front, value, back, (List.append_assoc _ _ _).symm, fieldCountOf_append, ?_⟩
  rw [codeSize_append, Nat.add_assoc]

/-- Patching a field gives its break the distance and changes nothing else. -/
theorem FieldAt.toList_patch {distances : List Int16} (h : FieldAt es number offset)
    (hlength : distances.length = fieldCountOf es)
    (hc : c.toList = encodeAll (instructionsOf es distances)) (n : Int16) :
    c.HasField offset ∧
      (c.patch offset n).toList = encodeAll (instructionsOf es (distances.set number n)) := by
  obtain ⟨front, value, back, rfl, rfl, rfl⟩ := h
  have hlt : fieldCountOf front < distances.length := by
    rw [hlength, fieldCountOf_append]
    exact Nat.lt_add_of_pos_right (Nat.add_pos_left Nat.one_pos _)
  obtain ⟨before, after, hsplit, hbefore, hset⟩ := @List.exists_of_set _ _ n _ hlt
  have hinstructions : ∀ m : Int16,
      encodeAll (instructionsOf (front ++ statement (.breakIfLast value) :: back)
        (before ++ m :: after)) =
      encodeAll (instructionsOf front before) ++
        (encode ⟨.jumpIfLast, [.byte value, .relative m]⟩ ++
          encodeAll (instructionsOf back after)) := by
    intro m
    rw [instructionsOf_append hbefore, encodeAll_append]
    rfl
  rw [hsplit, hinstructions] at hc
  have hsize := length_encodeAll_instructionsOf front before
  rw [← hsize, hset, hinstructions]
  exact ⟨CodeBuffer.hasField_break hc, CodeBuffer.toList_patch_break hc⟩

end Emission

/-- How the content of a buffer is put together. -/
inductive Construction where
  | empty
  | add (t : Construction) (e : Emission)
  /-- One buffer behind the other. -/
  | append (t u : Construction)
  /-- Overwrites the field with the number, if there is one. -/
  | patch (t : Construction) (number : Nat) (distance : Int16)
deriving DecidableEq, Repr

namespace Construction

open Emission

/-- The buffer, and the offsets of the fields of its breaks as its user keeps them: what adding a
statement tells, moved with the buffer. There is none if a field does not lie inside the buffer. -/
def run : Construction → Option (CodeBuffer × List Nat)
  | empty => some ({}, [])
  | add t e => do
    let (c, fields) ← t.run
    return ((e.emit c).1, fields ++ (e.emit c).2.toList)
  | append t u => do
    let (c, fields) ← t.run
    let (d, later) ← u.run
    return (c ++ d, fields ++ later.map (c.size + ·))
  | patch t number distance => do
    let (c, fields) ← t.run
    match fields[number]? with
    | none => return (c, fields)
    | some offset => return (← c.patch? offset distance, fields)

/-- All that is added, in its order. -/
def emitted : Construction → List Emission
  | empty => []
  | add t e => t.emitted ++ [e]
  | append t u => t.emitted ++ u.emitted
  | patch t _ _ => t.emitted

/-- The distances of the breaks: the ones patched in last, and zero where none is. -/
def distances : Construction → List Int16
  | empty => []
  | add t e => t.distances ++ List.replicate e.fieldCount 0
  | append t u => t.distances ++ u.distances
  | patch t number distance => t.distances.set number distance

/-- The instructions that the buffer holds. -/
def instructions (t : Construction) : List Instruction := instructionsOf t.emitted t.distances

/-- The last thing that is added is an exit. -/
def EndsInExit (t : Construction) : Prop := t.emitted.getLast? = some (.statement .exit)

instance (t : Construction) : Decidable t.EndsInExit :=
  inferInstanceAs (Decidable (_ = _))

theorem length_distances (t : Construction) : t.distances.length = fieldCountOf t.emitted := by
  induction t with
  | empty => rfl
  | add t e ih =>
      rw [distances, List.length_append, List.length_replicate, ih, emitted, fieldCountOf_append]
      rfl
  | append t u iht ihu => rw [distances, List.length_append, iht, ihu, emitted, fieldCountOf_append]
  | patch t number distance ih => rw [distances, List.length_set, ih, emitted]

/-- A construction leaves a buffer with the offsets of its fields. -/
structure Yields (t : Construction) (c : CodeBuffer) (fields : List Nat) : Prop where
  run_eq : t.run = some (c, fields)
  toList_eq : c.toList = encodeAll t.instructions
  lastOpcode_eq : c.lastOpcode = t.emitted.getLast?.map Emission.opcode
  length_fields : fields.length = t.distances.length
  fieldAt : ∀ number offset, fields[number]? = some offset → FieldAt t.emitted number offset

variable {t u : Construction} {c d : CodeBuffer} {fields later : List Nat}

theorem yields_empty : empty.Yields {} [] where
  run_eq := rfl
  toList_eq := rfl
  lastOpcode_eq := rfl
  length_fields := rfl
  fieldAt _ _ h := nomatch h

namespace Yields

theorem size_eq (h : t.Yields c fields) : c.size = codeSize t.emitted := by
  rw [← CodeBuffer.length_toList, h.toList_eq]
  exact length_encodeAll_instructionsOf _ _

theorem endsWithExit_iff (h : t.Yields c fields) : c.endsWithExit = true ↔ t.EndsInExit := by
  rw [CodeBuffer.endsWithExit, beq_iff_eq, h.lastOpcode_eq, EndsInExit]
  cases t.emitted.getLast? with
  | none => simp
  | some e => simpa using opcode_eq_exit_iff

/-- The bytes of the last instruction do not matter, be they operands or patched. -/
theorem lastOpcode_eq_instructions (h : t.Yields c fields) :
    c.lastOpcode = t.instructions.getLast?.map Instruction.opcode := by
  rw [h.lastOpcode_eq, ← List.getLast?_map, ← List.getLast?_map, instructions,
    map_opcode_instructionsOf]

/-- The file has one exit more than the buffer exactly if the buffer does not end in one. -/
theorem finish_eq (h : t.Yields c fields) {flags : Flags} {code : Bytes}
    (hcode : code = c.toList ++ if t.EndsInExit then [] else [0xFF]) (hlt : code.length < 2 ^ 32) :
    c.finish flags = .ok (Executable.encode ⟨flags, code⟩) := by
  have hclosed : c.closed.toList = code := by
    rw [hcode, CodeBuffer.closed]
    by_cases hexit : t.EndsInExit
    · rw [if_pos hexit, if_pos (h.endsWithExit_iff.mpr hexit), List.append_nil]
    · rw [if_neg hexit, if_neg (mt h.endsWithExit_iff.mp hexit), CodeBuffer.toList_emit]
      rfl
  rw [CodeBuffer.finish, hclosed]
  exact if_pos hlt

/-- Fields of the front stay where they are, and those behind it move. -/
theorem fieldAt_append (h : t.Yields c fields) {es : List Emission}
    (hlater : ∀ number offset, later[number]? = some offset → FieldAt es number offset) :
    ∀ number offset, (fields ++ later.map (c.size + ·))[number]? = some offset →
      FieldAt (t.emitted ++ es) number offset := by
  intro number offset hoffset
  rcases Nat.lt_or_ge number fields.length with hlt | hge
  · rw [List.getElem?_append_left hlt] at hoffset
    exact (h.fieldAt number offset hoffset).append_right es
  · rw [List.getElem?_append_right hge, List.getElem?_map, Option.map_eq_some_iff] at hoffset
    obtain ⟨inner, hinner, rfl⟩ := hoffset
    have hmoved := (hlater _ inner hinner).append_left t.emitted
    rw [h.size_eq]
    rwa [← length_distances, ← h.length_fields, Nat.add_sub_cancel' hge] at hmoved

theorem add (h : t.Yields c fields) (e : Emission) :
    (t.add e).Yields (e.emit c).1 (fields ++ (e.emit c).2.toList) where
  run_eq := by
    rw [run, h.run_eq]
    rfl
  toList_eq := by
    calc
      (e.emit c).1.toList = encodeAll t.instructions ++ (e.instruction 0).encode := by
        rw [fst_emit, CodeBuffer.toList_emit, h.toList_eq]
      _ = encodeAll (t.instructions ++ instructionsOf [e] (List.replicate e.fieldCount 0)) := by
        rw [instructionsOf_singleton, encodeAll_append, encodeAll_cons, encodeAll_nil,
          List.append_nil]
      _ = encodeAll (t.add e).instructions :=
        congrArg encodeAll (instructionsOf_append t.length_distances).symm
  lastOpcode_eq := by
    rw [fst_emit, CodeBuffer.lastOpcode_emit, opcode_instruction, emitted, List.getLast?_concat]
    rfl
  length_fields := by
    rw [distances, List.length_append, List.length_append, List.length_replicate, h.length_fields]
    rcases break_or_fieldCount_eq_zero e with ⟨value, rfl⟩ | ⟨hcount, hfield, -⟩
    · rfl
    · rw [hcount, hfield]
      rfl
  fieldAt := by
    rcases break_or_fieldCount_eq_zero e with ⟨value, rfl⟩ | ⟨-, hfield, -⟩
    · have hlater : ∀ number offset, [2][number]? = some offset →
          FieldAt [statement (.breakIfLast value)] number offset := by
        intro number offset hoffset
        obtain ⟨rfl, rfl⟩ : number = 0 ∧ offset = 2 := by
          cases number with
          | zero => exact ⟨rfl, (Option.some.inj hoffset).symm⟩
          | succ number => cases hoffset
        exact ⟨[], value, [], rfl, rfl, rfl⟩
      exact h.fieldAt_append hlater
    · rw [hfield, Option.toList_none, List.append_nil]
      intro number offset hoffset
      exact (h.fieldAt number offset hoffset).append_right [e]

theorem append (ht : t.Yields c fields) (hu : u.Yields d later) :
    (t.append u).Yields (c ++ d) (fields ++ later.map (c.size + ·)) where
  run_eq := by
    rw [run, ht.run_eq, hu.run_eq]
    rfl
  toList_eq := by
    calc
      (c ++ d).toList = encodeAll (t.instructions ++ u.instructions) := by
        rw [CodeBuffer.toList_append, ht.toList_eq, hu.toList_eq, encodeAll_append]
      _ = encodeAll (t.append u).instructions :=
        congrArg encodeAll (instructionsOf_append t.length_distances).symm
  lastOpcode_eq := by
    rw [CodeBuffer.lastOpcode_append, ht.lastOpcode_eq, hu.lastOpcode_eq, emitted,
      List.getLast?_append]
    cases u.emitted.getLast? with
    | none => rfl
    | some e => rfl
  length_fields := by
    rw [distances, List.length_append, List.length_append, List.length_map, ht.length_fields,
      hu.length_fields]
  fieldAt := ht.fieldAt_append hu.fieldAt

theorem patch (h : t.Yields c fields) {number offset : Nat}
    (hoffset : fields[number]? = some offset) (n : Int16) :
    (t.patch number n).Yields (c.patch offset n) fields := by
  obtain ⟨hfield, hpatch⟩ :=
    (h.fieldAt number offset hoffset).toList_patch t.length_distances h.toList_eq n
  exact {
    run_eq := by
      have hpatch? : c.patch? offset n = some (c.patch offset n) :=
        CodeBuffer.patch?_eq_some_iff.mpr ⟨hfield, rfl⟩
      simp [run, h.run_eq, hoffset, hpatch?]
    toList_eq := hpatch
    lastOpcode_eq := h.lastOpcode_eq
    length_fields := by rw [distances, List.length_set, h.length_fields]
    fieldAt := h.fieldAt }

/-- Without a field of the number nothing changes. -/
theorem patch_of_none (h : t.Yields c fields) {number : Nat} (hnone : fields[number]? = none)
    (n : Int16) : (t.patch number n).Yields c fields := by
  have hdistances : (t.patch number n).distances = t.distances := by
    rw [List.getElem?_eq_none_iff, h.length_fields] at hnone
    exact List.set_eq_of_length_le hnone
  exact {
    run_eq := by simp [run, h.run_eq, hnone]
    toList_eq := by
      rw [h.toList_eq, instructions, instructions, hdistances]
      rfl
    lastOpcode_eq := h.lastOpcode_eq
    length_fields := by rw [hdistances, h.length_fields]
    fieldAt := h.fieldAt }

end Yields

/-- Every construction leaves a buffer that holds its instructions and remembers the last one. -/
theorem exists_yields (t : Construction) : ∃ c fields, t.Yields c fields := by
  induction t with
  | empty => exact ⟨_, _, yields_empty⟩
  | add t e ih =>
      obtain ⟨c, fields, h⟩ := ih
      exact ⟨_, _, h.add e⟩
  | append t u iht ihu =>
      obtain ⟨c, fields, ht⟩ := iht
      obtain ⟨d, later, hu⟩ := ihu
      exact ⟨_, _, ht.append hu⟩
  | patch t number distance ih =>
      obtain ⟨c, fields, h⟩ := ih
      cases hoffset : fields[number]? with
      | none => exact ⟨_, _, h.patch_of_none hoffset distance⟩
      | some offset => exact ⟨_, _, h.patch hoffset distance⟩

/-- Whatever is added, spliced and patched, and in whatever order, no patch misses the buffer.
There is a field for every break. The buffer holds the instructions that were added, the breaks
with the distances that were patched in last; the opcode of the last of them is remembered, and
it ends with an exit exactly if that one is an exit. The file is the header with the length of
the code, and then the code: what the buffer holds, and one exit exactly if the last instruction
is not one. -/
theorem buffer_and_file_of_emitted (t : Construction) :
    ∃ c fields, t.run = some (c, fields) ∧ fields.length = t.distances.length ∧
      c.toList = encodeAll t.instructions ∧
      c.lastOpcode = t.instructions.getLast?.map Instruction.opcode ∧
      (c.endsWithExit = true ↔ t.EndsInExit) ∧
      ∀ (flags : Flags) (code : Bytes),
        code = c.toList ++ (if t.EndsInExit then [] else [0xFF]) → code.length < 2 ^ 32 →
          c.finish flags = .ok ([0x42, 0x45, 0x58, 0x45, 1, flags.bits] ++
            Bytes.littleEndian 4 code.length ++ [0, 0, 0, 0, 0, 0] ++ code) := by
  obtain ⟨c, fields, h⟩ := t.exists_yields
  refine ⟨c, fields, h.run_eq, h.length_fields, h.toList_eq, h.lastOpcode_eq_instructions,
    h.endsWithExit_iff, ?_⟩
  intro flags code hcode hlt
  exact h.finish_eq hcode hlt

/-- A break and a cursor, spliced behind themselves: the second break is patched, and the code
ends with a byte that looks like an exit. -/
theorem buffer_and_file_of_break_spliced_twice :
    ∃ c fields, run (.patch (.append
        (.add (.add .empty (.statement (.breakIfLast 3))) (.statement (.setCursor 0 255)))
        (.add (.add .empty (.statement (.breakIfLast 3))) (.statement (.setCursor 0 255))))
        1 (-1)) = some (c, fields) ∧
      c.endsWithExit = false ∧
      c.finish ∅ = .ok ([0x42, 0x45, 0x58, 0x45, 1, 0, 15, 0, 0, 0, 0, 0, 0, 0, 0, 0] ++
        [0x51, 3, 0, 0, 0x31, 0, 0xFF, 0x51, 3, 0xFF, 0xFF, 0x31, 0, 0xFF, 0xFF]) := by
  let body : Construction :=
    .add (.add .empty (.statement (.breakIfLast 3))) (.statement (.setCursor 0 255))
  obtain ⟨c, fields, hrun, -, hbytes, -, hexit, hfinish⟩ :=
    buffer_and_file_of_emitted ((body.append body).patch 1 (-1))
  have hcode : [0x51, 3, 0, 0, 0x31, 0, 0xFF, 0x51, 3, 0xFF, 0xFF, 0x31, 0, 0xFF, 0xFF] =
      c.toList ++ if ((body.append body).patch 1 (-1)).EndsInExit then [] else [0xFF] := by
    rw [hbytes]
    decide
  refine ⟨c, fields, hrun, ?_, ?_⟩
  · exact Bool.eq_false_iff.mpr (mt hexit.mp (by decide))
  · exact hfinish ∅ _ hcode (by decide)

/-! ### Programs -/

namespace Yields

theorem loopBody_add {b : LoopBody} (h : t.Yields b.code b.placeholders.toList) (s : Statement) :
    (t.add (.statement s)).Yields (b.add s).code (b.add s).placeholders.toList := by
  rw [LoopBody.code_add, LoopBody.toList_placeholders_add]
  exact h.add (.statement s)

/-- The placeholders of a loop's body are the offsets that its construction keeps. -/
theorem exists_loopBody_foldl {b : LoopBody} (h : t.Yields b.code b.placeholders.toList)
    (body : List Statement) : ∃ u : Construction,
      u.Yields (body.foldl LoopBody.add b).code
        (body.foldl LoopBody.add b).placeholders.toList := by
  induction body generalizing t b with
  | nil => exact ⟨t, h⟩
  | cons s body ih => exact ih (h.loopBody_add s)

/-- Resolving a break patches its field. -/
theorem exists_resolve {range : JumpRange} {place : Bytes} {target offset : Nat}
    (h : t.Yields c fields) (hoffset : offset ∈ fields)
    (hd : CodeBuffer.resolve range place target c offset = .ok d) :
    ∃ u : Construction, u.Yields d fields := by
  obtain ⟨number, hnumber⟩ := List.mem_iff_getElem?.mp hoffset
  obtain ⟨distance, -, rfl⟩ := CodeBuffer.resolve_eq_ok_iff.mp hd
  exact ⟨_, h.patch hnumber distance⟩

theorem exists_foldlM_resolve {range : JumpRange} {place : Bytes} {target : Nat}
    (h : t.Yields c fields) (hlater : ∀ offset ∈ later, offset ∈ fields)
    (hd : later.foldlM (CodeBuffer.resolve range place target) c = .ok d) :
    ∃ u : Construction, u.Yields d fields := by
  induction later generalizing t c with
  | nil =>
      cases hd
      exact ⟨t, h⟩
  | cons offset later ih =>
      rw [List.foldlM_cons] at hd
      obtain ⟨c', hc', hrest⟩ := bind_eq_ok_iff.mp hd
      obtain ⟨u, hu⟩ := h.exists_resolve (hlater offset List.mem_cons_self) hc'
      apply ih hu _ hrest
      intro x hx
      exact hlater x (List.mem_cons_of_mem _ hx)

end Yields

end Construction

open Construction

namespace CodeBuffer

variable {c d : CodeBuffer}

/-- Some construction leaves the buffer. -/
def IsConstructed (c : CodeBuffer) : Prop :=
  ∃ (t : Construction) (fields : List Nat), t.run = some (c, fields)

theorem isConstructed_iff :
    c.IsConstructed ↔ ∃ (t : Construction) (fields : List Nat), t.Yields c fields := by
  constructor
  · rintro ⟨t, fields, hrun⟩
    obtain ⟨c', fields', h⟩ := t.exists_yields
    rw [h.run_eq] at hrun
    cases hrun
    exact ⟨t, fields, h⟩
  · rintro ⟨t, fields, h⟩
    exact ⟨t, fields, h.run_eq⟩

theorem isConstructed_empty : IsConstructed {} := ⟨.empty, [], rfl⟩

namespace IsConstructed

theorem emit (h : c.IsConstructed) (e : Emission) : (e.emit c).1.IsConstructed := by
  obtain ⟨t, fields, ht⟩ := isConstructed_iff.mp h
  exact isConstructed_iff.mpr ⟨_, _, ht.add e⟩

/-- A loop is its body, spliced behind the code, with its breaks patched and a jump added. -/
theorem emitLoop {range : JumpRange} {place : Bytes} {body : List Statement}
    (h : c.IsConstructed) (hd : c.emitLoop range place (.ofStatements body) = .ok d) :
    d.IsConstructed := by
  obtain ⟨t, fields, ht⟩ := isConstructed_iff.mp h
  obtain ⟨u, hu⟩ := Yields.exists_loopBody_foldl (b := {}) yields_empty body
  rw [emitLoop_eq_foldlM_bind] at hd
  obtain ⟨patched, hpatched, hjump⟩ := bind_eq_ok_iff.mp hd
  obtain ⟨v, hv⟩ := (ht.append hu).exists_foldlM_resolve
    (fun _ hoffset => List.mem_append_right _ hoffset) hpatched
  obtain ⟨distance, -, hdistance⟩ := bind_eq_ok_iff.mp hjump
  cases hdistance
  exact isConstructed_iff.mpr ⟨_, _, hv.add (.jump distance)⟩

theorem closed (h : c.IsConstructed) : c.closed.IsConstructed := by
  by_cases hexit : c.endsWithExit = true
  · rwa [closed_of_endsWithExit hexit]
  · rw [CodeBuffer.closed, if_neg hexit]
    exact h.emit (.statement .exit)

end IsConstructed

end CodeBuffer

namespace Program

variable {range : JumpRange} {p q : Program}

/-- An item adds a statement, a loop or nothing. -/
theorem isConstructed_of_add {item : Item} (h : p.code.IsConstructed)
    (hq : p.add range item = .ok q) : q.code.IsConstructed := by
  cases item with
  | remark =>
      cases hq
      exact h
  | declaration v =>
      cases hq
      exact h
  | statement s =>
      cases hq
      exact h.emit (.statement s)
  | loop place body =>
      obtain ⟨d, hd, hq⟩ := bind_eq_ok_iff.mp hq
      cases hq
      exact h.emitLoop hd

theorem isConstructed_of_foldlM_add {items : List Item} (h : p.code.IsConstructed)
    (hq : items.foldlM (add range) p = .ok q) : q.code.IsConstructed := by
  induction items generalizing p with
  | nil =>
      cases hq
      exact h
  | cons item items ih =>
      rw [List.foldlM_cons] at hq
      obtain ⟨p', hp', hrest⟩ := bind_eq_ok_iff.mp hq
      exact ih (isConstructed_of_add h hp') hrest

end Program

/-- The code of every program is put together by adding, splicing and patching. -/
theorem isConstructed_of_compile {options : CompileOptions} {source : Bytes} {p : Program}
    (h : compile options source = .ok p) : p.code.IsConstructed := by
  rw [compile, mapError_eq_ok_iff, Program.ofScript] at h
  obtain ⟨assembled, hassembled, hclosed⟩ := bind_eq_ok_iff.mp h
  have hcode := Program.isConstructed_of_foldlM_add (p := {}) CodeBuffer.isConstructed_empty
    hassembled
  cases hfault : (Script.read options.maxVariables source).fault? with
  | some e =>
      rw [hfault] at hclosed
      cases hclosed
  | none =>
      rw [hfault] at hclosed
      cases hclosed
      exact hcode.closed

end ConsoleScript
