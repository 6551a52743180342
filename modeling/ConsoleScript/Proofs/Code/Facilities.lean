import ConsoleScript.Proofs.Code.Block

/-!
# Facilities and operands of a program

What a program announces and what operands its instructions have can be read off its
instructions.
-/

namespace ConsoleScript

open Instruction Statement

namespace Opcode

/-- The opcodes that use files. -/
def ofFiles : List Opcode := [loadFile, writeFile, writeBuf]

/-- The opcodes that use the console beyond writing to it. -/
def ofConsole : List Opcode := [clear, setCursor, readKey, printBuf, printLast]

end Opcode

namespace Flags

/-- The flags that announce the two facilities or not. -/
def announcing (files console : Bool) : Flags :=
  (if files then fileAccess else ∅) ∪ if console then Flags.console else ∅

theorem announcing_union (files console files' console' : Bool) :
    announcing files console ∪ announcing files' console' =
      announcing (files || files') (console || console') := by
  revert files console files' console'
  decide

theorem announcing_contains_fileAccess {files console : Bool} :
    (announcing files console).Contains fileAccess ↔ files = true := by
  revert files console
  decide

theorem announcing_contains_console {files console : Bool} :
    (announcing files console).Contains Flags.console ↔ console = true := by
  revert files console
  decide

/-- No bit but those of the two facilities is set. -/
theorem announcing_bits_and_not (files console : Bool) :
    (announcing files console).bits &&& ~~~(fileAccess ∪ Flags.console).bits = 0 := by
  revert files console
  decide

end Flags

namespace Statement

theorem requiredFlags_eq_announcing (s : Statement) :
    s.requiredFlags = .announcing (s.instruction.opcode ∈ Opcode.ofFiles)
      (s.instruction.opcode ∈ Opcode.ofConsole) := by
  cases s <;> simp [requiredFlags, instruction, Opcode.ofFiles, Opcode.ofConsole, Flags.announcing]

theorem foldl_requiredFlags (files console : Bool) (statements : List Statement) :
    statements.foldl (fun flags s => flags ∪ s.requiredFlags) (.announcing files console) =
      .announcing (files || statements.any (·.instruction.opcode ∈ Opcode.ofFiles))
        (console || statements.any (·.instruction.opcode ∈ Opcode.ofConsole)) := by
  induction statements generalizing files console with
  | nil => simp
  | cons s statements ih =>
      have hfirst : Flags.announcing files console ∪ s.requiredFlags =
          .announcing (files || s.instruction.opcode ∈ Opcode.ofFiles)
            (console || s.instruction.opcode ∈ Opcode.ofConsole) := by
        rw [requiredFlags_eq_announcing, Flags.announcing_union]
      rw [List.foldl_cons, hfirst, ih, List.any_cons, List.any_cons, Bool.or_assoc,
        Bool.or_assoc]

@[simp] theorem map_opcode_resolveAll (body : List Statement) :
    (resolveAll body).map opcode = body.map (·.instruction.opcode) := by
  induction body with
  | nil => rfl
  | cons s body ih => simp [resolveAll, ih]

theorem exists_of_mem_resolveAll {body : List Statement} {i : Instruction}
    (h : i ∈ resolveAll body) : ∃ behind s, i = resolved behind s := by
  induction body with
  | nil => cases h
  | cons s body ih =>
      rcases List.mem_cons.mp h with rfl | h
      · exact ⟨codeSize body, s, rfl⟩
      · exact ih h

theorem kinds_resolved (behind : Nat) (s : Statement) :
    (s.resolved behind).operands.map Operand.kind = (s.resolved behind).opcode.operandKinds := by
  cases s <;> rfl

end Statement

namespace Block

variable {blocks : List Block} {i : Instruction}

/-- The opcodes of a block are those of its statements and a loop's jump. -/
theorem exists_opcode_mem_iff {b : Block} {ops : List Opcode} (hjump : .jump ∉ ops) :
    (∃ i ∈ b.instructions, i.opcode ∈ ops) ↔
      ∃ s ∈ b.statements, s.instruction.opcode ∈ ops := by
  cases b with
  | statement s => simp [instructions, statements]
  | loop body =>
      constructor
      · rintro ⟨i, hi, hop⟩
        rcases List.mem_append.mp hi with hi | hi
        · have hmem : i.opcode ∈ (resolveAll body).map opcode := List.mem_map_of_mem hi
          rw [map_opcode_resolveAll] at hmem
          obtain ⟨s, hs, heq⟩ := List.mem_map.mp hmem
          exact ⟨s, hs, heq ▸ hop⟩
        · rw [List.mem_singleton.mp hi] at hop
          exact absurd hop hjump
      · rintro ⟨s, hs, hop⟩
        have hmem : s.instruction.opcode ∈ (resolveAll body).map opcode := by
          rw [map_opcode_resolveAll]
          exact List.mem_map_of_mem hs
        obtain ⟨i, hi, heq⟩ := List.mem_map.mp hmem
        exact ⟨i, List.mem_append_left _ hi, heq ▸ hop⟩

/-- The opcodes of a program are those of its statements, its loops' jumps and its exit. -/
theorem exists_opcode_mem_closed_iff {ops : List Opcode} (hjump : .jump ∉ ops)
    (hexit : .exit ∉ ops) :
    (∃ i ∈ Instruction.closed (instructionsOf blocks), i.opcode ∈ ops) ↔
      ∃ s ∈ blocks.flatMap statements, s.instruction.opcode ∈ ops := by
  obtain ⟨tail, htail, hexits⟩ := closed_eq_append (instructionsOf blocks)
  rw [htail]
  constructor
  · rintro ⟨i, hi, hop⟩
    rcases List.mem_append.mp hi with hi | hi
    · obtain ⟨b, hb, hi⟩ := List.mem_flatMap.mp hi
      obtain ⟨s, hs, hop⟩ := (exists_opcode_mem_iff hjump).mp ⟨i, hi, hop⟩
      exact ⟨s, List.mem_flatMap.mpr ⟨b, hb, hs⟩, hop⟩
    · rw [hexits i hi] at hop
      exact absurd hop hexit
  · rintro ⟨s, hs, hop⟩
    obtain ⟨b, hb, hs⟩ := List.mem_flatMap.mp hs
    obtain ⟨i, hi, hop⟩ := (exists_opcode_mem_iff hjump).mpr ⟨s, hs, hop⟩
    exact ⟨i, List.mem_append_left _ (List.mem_flatMap.mpr ⟨b, hb, hi⟩), hop⟩

theorem flagsOf_eq_announcing (blocks : List Block) :
    flagsOf blocks =
      .announcing ((blocks.flatMap statements).any (·.instruction.opcode ∈ Opcode.ofFiles))
        ((blocks.flatMap statements).any (·.instruction.opcode ∈ Opcode.ofConsole)) :=
  foldl_requiredFlags false false (blocks.flatMap statements)

theorem contains_fileAccess_iff :
    (flagsOf blocks).Contains .fileAccess ↔
      ∃ i ∈ Instruction.closed (instructionsOf blocks), i.opcode ∈ Opcode.ofFiles := by
  rw [flagsOf_eq_announcing, Flags.announcing_contains_fileAccess,
    exists_opcode_mem_closed_iff (by decide) (by decide), List.any_eq_true]
  simp only [decide_eq_true_eq]

theorem contains_console_iff :
    (flagsOf blocks).Contains .console ↔
      ∃ i ∈ Instruction.closed (instructionsOf blocks), i.opcode ∈ Opcode.ofConsole := by
  rw [flagsOf_eq_announcing, Flags.announcing_contains_console,
    exists_opcode_mem_closed_iff (by decide) (by decide), List.any_eq_true]
  simp only [decide_eq_true_eq]

theorem kinds_of_mem_instructions {b : Block} (h : i ∈ b.instructions) :
    i.operands.map Operand.kind = i.opcode.operandKinds := by
  cases b with
  | statement s =>
      rw [List.mem_singleton.mp h]
      exact s.kinds_instruction
  | loop body =>
      rcases List.mem_append.mp h with h | h
      · obtain ⟨behind, s, rfl⟩ := exists_of_mem_resolveAll h
        exact kinds_resolved behind s
      · rw [List.mem_singleton.mp h]
        rfl

theorem kinds_of_mem_closed (h : i ∈ Instruction.closed (instructionsOf blocks)) :
    i.operands.map Operand.kind = i.opcode.operandKinds := by
  obtain ⟨tail, htail, hexits⟩ := closed_eq_append (instructionsOf blocks)
  rw [htail] at h
  rcases List.mem_append.mp h with h | h
  · obtain ⟨b, -, h⟩ := List.mem_flatMap.mp h
    exact kinds_of_mem_instructions h
  · rw [hexits i h]
    rfl

end Block

end ConsoleScript
