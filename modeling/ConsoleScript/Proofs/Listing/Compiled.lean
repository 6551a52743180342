import ConsoleScript.Proofs.Code.Facilities
import ConsoleScript.Proofs.Listing.Layout

/-!
# Listings of compiled programs

Decoding the code of a compiled source gives back the emitted instructions, unless a
string operand holds a zero, in front of which a reader takes the string to end.
-/

namespace ConsoleScript

open Instruction Listing

/-- The instructions that compiling a source emits, in the order of the code. -/
def emitted (options : CompileOptions) (source : Bytes) : List Instruction :=
  (Script.read options.maxVariables source).instructions

variable {options : CompileOptions} {source : Bytes} {p : Program} {l : Listing}

theorem toList_code_of_compile (h : compile options source = .ok p) :
    p.code.toList = encodeAll (emitted options source) := by
  obtain ⟨-, -, rfl⟩ := compile_eq_ok_iff_read.mp h
  rfl

theorem flags_of_compile (h : compile options source = .ok p) :
    p.flags = Block.flagsOf (Script.read options.maxVariables source).blocks := by
  obtain ⟨-, -, rfl⟩ := compile_eq_ok_iff_read.mp h
  rfl

/-- An emitted instruction can be read back exactly if its strings hold no zero. -/
theorem wellFormed_emitted_iff :
    (∀ i ∈ emitted options source, i.WellFormed) ↔
      ∀ i ∈ emitted options source, ∀ o ∈ i.operands, o.Delimited := by
  constructor
  · intro h i hi
    exact (h i hi).2
  · intro h i hi
    exact ⟨Block.kinds_of_mem_closed hi, h i hi⟩

/-- What decodes to the emitted instructions is their layout. -/
theorem decode_code_eq_ok_iff (h : compile options source = .ok p) :
    decode p.code.toList = .ok l ∧ l.entries.map Entry.toInstruction = emitted options source ↔
      (∀ i ∈ emitted options source, ∀ o ∈ i.operands, o.Delimited) ∧
        l = ofEntries (layout 0 (emitted options source)) p.code.size := by
  rw [decode_eq_ok_iff_encodeAll, toList_code_of_compile h, ← wellFormed_emitted_iff,
    ← CodeBuffer.length_toList, toList_code_of_compile h]
  constructor
  · rintro ⟨⟨is, his, hcode, rfl⟩, hentries⟩
    obtain rfl : is = emitted options source := (map_toInstruction_layout 0 is).symm.trans hentries
    exact ⟨his, rfl⟩
  · rintro ⟨his, rfl⟩
    exact ⟨⟨_, his, rfl, rfl⟩, map_toInstruction_layout 0 _⟩

example : ¬∃ p l, compile {} (Bytes.ofString "print \"A\\0B\";") = .ok p ∧
    decode p.code.toList = .ok l ∧
      l.entries.map Entry.toInstruction = emitted {} (Bytes.ofString "print \"A\\0B\";") := by
  rintro ⟨p, l, h, hl⟩
  have hdelimited := ((decode_code_eq_ok_iff h).mp hl).1
  exact absurd hdelimited (by decide +kernel)

/-- Decoding the code of a compiled source succeeds with the emitted instructions exactly
if none of their strings holds a zero. In this case the last instruction is an exit that
ends where the code ends, and the flags announce the facilities that are used and no
others. -/
theorem decode_code_iff_delimited (h : compile options source = .ok p) :
    p.code.toList = encodeAll (emitted options source) ∧
      ((∃ l, decode p.code.toList = .ok l ∧
          l.entries.map Entry.toInstruction = emitted options source) ↔
        ∀ i ∈ emitted options source, ∀ o ∈ i.operands, o.Delimited) ∧
      ∀ l, decode p.code.toList = .ok l →
        l.entries.map Entry.toInstruction = emitted options source →
          l.codeLength = p.code.size ∧
          (∃ e, l.entries.getLast? = some e ∧ e.opcode = .exit ∧
            e.offset + e.size = l.codeLength) ∧
          (p.flags.Contains .fileAccess ↔ ∃ e ∈ l.entries, e.opcode ∈ Opcode.ofFiles) ∧
          (p.flags.Contains .console ↔ ∃ e ∈ l.entries, e.opcode ∈ Opcode.ofConsole) ∧
          p.flags.bits &&& ~~~(Flags.fileAccess ∪ Flags.console).bits = 0 := by
  refine ⟨toList_code_of_compile h, ?_, ?_⟩
  · constructor
    · rintro ⟨l, hl⟩
      exact ((decode_code_eq_ok_iff h).mp hl).1
    · intro hdelimited
      exact ⟨_, (decode_code_eq_ok_iff h).mpr ⟨hdelimited, rfl⟩⟩
  · intro l hl hentries
    obtain ⟨-, rfl⟩ := (decode_code_eq_ok_iff h).mp ⟨hl, hentries⟩
    refine ⟨rfl, ?_, ?_, ?_, ?_⟩
    · obtain ⟨i, hlast, hexit⟩ := Option.map_eq_some_iff.mp
        (opcode_getLast?_closed
          (Block.instructionsOf (Script.read options.maxVariables source).blocks))
      obtain ⟨e, he, hi, hend⟩ := getLast?_layout 0 hlast
      refine ⟨e, he, by rw [hi, hexit], ?_⟩
      rw [hend, Nat.zero_add]
      show (encodeAll (emitted options source)).length = p.code.size
      rw [← toList_code_of_compile h, CodeBuffer.length_toList]
    · rw [flags_of_compile h, Block.contains_fileAccess_iff]
      exact exists_mem_layout_iff.symm
    · rw [flags_of_compile h, Block.contains_console_iff]
      exact exists_mem_layout_iff.symm
    · rw [flags_of_compile h, Block.flagsOf_eq_announcing]
      exact Flags.announcing_bits_and_not _ _

theorem decode_code_of_loop_and_key :
    ∃ p, compile {} (Bytes.ofString "loop \x7b print \"A\"; breakiflast 1; \x7d readkey;") = .ok p ∧
      ∃ l, decode p.code.toList = .ok l ∧ ∃ e ∈ l.entries, e.opcode ∈ Opcode.ofConsole := by
  have h : compile {} (Bytes.ofString "loop \x7b print \"A\"; breakiflast 1; \x7d readkey;") =
      .ok (.ofBlocks [.loop [.print [65], .breakIfLast 1], .statement .readKey] 0) := by
    decide +kernel
  obtain ⟨-, hiff, hlisting⟩ := decode_code_iff_delimited h
  obtain ⟨l, hl, hentries⟩ := hiff.mpr (by decide +kernel)
  obtain ⟨-, -, -, hconsole, -⟩ := hlisting l hl hentries
  exact ⟨_, h, l, hl, hconsole.mp (by decide +kernel)⟩

end ConsoleScript
