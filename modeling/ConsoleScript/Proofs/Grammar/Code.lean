import ConsoleScript.Proofs.Coordinates

/-!
# The code of clauses

The language says of each command which bytes it leaves in the code and which facilities it
announces. Here that is written down as a table, from tags, operands and bits alone. The compiler
has another one, which goes by statements, their instructions and their flags, and patches the
distances of jumps in; both give the same code and the same flags.
-/

namespace ConsoleScript.Grammar

open Instruction Statement

/-! ### The table -/

/-- The field of a string: its bytes and a zero. -/
def StringOperand.field? (declared : List Variable) (o : StringOperand) : Option Bytes :=
  (o.value? declared).map (· ++ [0])

/-- The number from zero to 255 that is nearest to an integer. -/
def IntOperand.nearest? (declared : List Variable) (o : IntOperand) : Option UInt8 :=
  (o.value? declared).map fun n => UInt8.ofNat (min 255 (max 0 n.toInt)).toNat

/-- The residue of an integer modulo 256. -/
def IntOperand.residue? (declared : List Variable) (o : IntOperand) : Option UInt8 :=
  (o.value? declared).map fun n => UInt8.ofNat (n.toInt % 0x100).toNat

/-- The field of a jump's distance: its residue in two bytes, the low one first. -/
def distanceField (distance : Int) : Bytes :=
  Bytes.littleEndian 2 (distance % 0x10000).toNat

namespace Command

variable {scope : Scope}

/-- The byte that a command's code starts with. -/
def tag : Command scope → UInt8
  | putChar _ => 0x01
  | print _ => 0x02
  | loadFile _ => 0x10
  | writeFile .. => 0x11
  | printBuf => 0x12
  | writeBuf _ => 0x13
  | printLast => 0x14
  | readKey => 0x20
  | clear => 0x30
  | setCursor .. => 0x31
  | breakIfLast _ => 0x51
  | exit => 0xFF

/-- The bytes behind the tag of a command that so many bytes of a loop's body stand behind. Only
a conditional break depends on their number: it goes to the end of the body. -/
def fields? (declared : List Variable) (behind : Nat) : Command scope → Option Bytes
  | print o | loadFile o | writeBuf o => o.field? declared
  | writeFile path data => do return (← path.field? declared) ++ (← data.field? declared)
  | putChar u => some [u.value]
  | setCursor x _ y => do return [← x.nearest? declared, ← y.nearest? declared]
  | breakIfLast o => do return (← o.residue? declared) :: distanceField behind
  | exit | clear | readKey | printBuf | printLast => some []

def code? (declared : List Variable) (behind : Nat) (c : Command scope) : Option Bytes :=
  (c.fields? declared behind).map (c.tag :: ·)

/-- The bits that a command sets in the flags: the lowest one for files, and the next one for
what the console does beyond showing text. -/
def flagBits : Command scope → UInt8
  | loadFile _ | writeFile .. | writeBuf _ => 0x01
  | clear | setCursor .. | readKey | printBuf | printLast => 0x02
  | print _ | putChar _ | exit | breakIfLast _ => 0x00

end Command

/-- The code of the commands of a loop's body. -/
def bodyCode? (declared : List Variable) : List (Command .loopBody) → Option Bytes
  | [] => some []
  | c :: body => do
    let later ← bodyCode? declared body
    return (← c.code? declared later.length) ++ later

namespace Clause

/-- The code of a clause behind declarations. A loop ends in a jump back to its start. -/
def code? (declared : List Variable) : Clause → Option Bytes
  | remark .. | declaration .. => some []
  | statement c => c.code? declared 0
  | loop body => do
    let code ← bodyCode? declared body
    return code ++ 0x50 :: distanceField (-(code.length + 3 : Nat))

/-- The flag bits of the commands of a clause. -/
def flagBits : Clause → List UInt8
  | remark .. | declaration .. => []
  | statement c => [c.flagBits]
  | loop body => body.map Command.flagBits

/-- The tag of the last instruction of a clause, if it leaves any code. -/
def lastTag? : Clause → Option UInt8
  | remark .. | declaration .. => none
  | statement c => some c.tag
  | loop _ => some 0x50

end Clause

/-- The code of clauses behind declarations. -/
def codeOf? (declared : List Variable) : List Clause → Option Bytes
  | [] => some []
  | c :: clauses => do
    return (← c.code? declared) ++ (← codeOf? (declared ++ c.declarations) clauses)

/-- The exit that is added to the code of clauses, unless they end in one. -/
def exitBehind (clauses : List Clause) : Bytes :=
  if (clauses.filterMap Clause.lastTag?).getLast? = some 0xFF then [] else [0xFF]

/-- The flags of clauses. -/
def flagBitsOf (clauses : List Clause) : UInt8 :=
  (clauses.flatMap Clause.flagBits).foldl (· ||| ·) 0

/-! ### Commands -/

variable {declared : List Variable} {behind : Nat}

theorem ofInt16_ofInt (distance : Int) :
    Bytes.ofInt16 (Int16.ofInt distance) = distanceField distance := by
  have hword : (Int16.ofInt distance).toUInt16.toNat = (distance % 0x10000).toNat :=
    BitVec.toNat_ofInt distance
  rw [Bytes.ofInt16, hword, distanceField]

theorem IntOperand.map_coordinate (o : IntOperand) :
    (o.value? declared).map coordinate = o.nearest? declared := by
  have hbyte : coordinate = fun n => UInt8.ofNat (min 255 (max 0 n.toInt)).toNat := by
    funext n
    rw [← toNat_coordinate, Int.toNat_natCast, UInt8.ofNat_toNat]
  rw [nearest?, hbyte]

theorem IntOperand.map_lowByte (o : IntOperand) :
    (o.value? declared).map (fun n => n.toUInt32.toUInt8) = o.residue? declared := by
  have hbyte : (fun n : Int32 => n.toUInt32.toUInt8) =
      fun n => UInt8.ofNat (n.toInt % 0x100).toNat := by
    funext n
    rw [← toNat_lowByte, Int.toNat_natCast, UInt8.ofNat_toNat]
  rw [residue?, hbyte]

namespace Command

variable {scope : Scope}

/-- The table gives the code of the command's statement. -/
theorem code?_eq_map_encode (c : Command scope) :
    c.code? declared behind =
      (c.statement? declared).map fun s => (s.resolved behind).encode := by
  cases c with
  | putChar u => rfl
  | exit | clear | readKey | printBuf | printLast => rfl
  | print o | loadFile o | writeBuf o =>
      rw [code?, fields?, statement?, StringOperand.field?]
      cases o.value? declared with
      | none => rfl
      | some s => simp [tag, resolved, instruction, encode, Operand.encode, Opcode.toByte]
  | writeFile path data =>
      simp only [code?, fields?, statement?, StringOperand.field?]
      cases path.value? declared with
      | none => rfl
      | some s =>
          cases data.value? declared with
          | none => rfl
          | some t => simp [tag, resolved, instruction, encode, Operand.encode, Opcode.toByte]
  | setCursor x comma y =>
      simp only [code?, fields?, statement?, ← IntOperand.map_coordinate]
      cases x.value? declared with
      | none => rfl
      | some m => cases y.value? declared <;> rfl
  | breakIfLast o =>
      simp only [code?, fields?, statement?, ← IntOperand.map_lowByte, ← ofInt16_ofInt]
      cases o.value? declared with
      | none => rfl
      | some n => simp [tag, resolved, encode, Operand.encode, Opcode.toByte]

/-- The table gives the flags of the command's statement. -/
theorem bits_requiredFlags {c : Command scope} {s : Statement}
    (h : c.statement? declared = some s) : s.requiredFlags.bits = c.flagBits := by
  cases c with
  | putChar | exit | clear | readKey | printBuf | printLast =>
      cases h
      rfl
  | print | loadFile | writeBuf | breakIfLast =>
      obtain ⟨value, -, rfl⟩ := Option.map_eq_some_iff.mp h
      rfl
  | writeFile | setCursor =>
      obtain ⟨first, -, hsecond⟩ := Option.bind_eq_some_iff.mp h
      obtain ⟨second, -, hs⟩ := Option.bind_eq_some_iff.mp hsecond
      cases hs
      rfl

theorem toByte_opcode {c : Command scope} {s : Statement}
    (h : c.statement? declared = some s) : s.instruction.opcode.toByte = c.tag := by
  have hcode : c.code? declared 0 =
      (c.statement? declared).map fun s => (s.resolved 0).encode := c.code?_eq_map_encode
  rw [h] at hcode
  obtain ⟨fields, -, hfields⟩ := Option.map_eq_some_iff.mp hcode
  rw [← opcode_resolved 0]
  exact (List.cons.inj hfields).1.symm

theorem map_bits_requiredFlags {body : List (Command scope)} {statements : List Statement}
    (h : body.mapM (statement? declared) = some statements) :
    statements.map (·.requiredFlags.bits) = body.map flagBits := by
  induction body generalizing statements with
  | nil =>
      cases h
      rfl
  | cons c body ih =>
      rw [List.mapM_cons] at h
      obtain ⟨s, hs, h⟩ := Option.bind_eq_some_iff.mp h
      obtain ⟨later, hlater, h⟩ := Option.bind_eq_some_iff.mp h
      cases h
      rw [List.map_cons, List.map_cons, bits_requiredFlags hs, ih hlater]

/-- Emitting the statement of a command adds the bytes of the table, with a zero distance. -/
theorem emit_of_statement? {c : Command scope} {s : Statement}
    (h : c.statement? declared = some s) (b : CodeBuffer) :
    ∃ code, c.code? declared 0 = some code ∧ (s.emit b).1.toList = b.toList ++ code ∧
      s.requiredFlags.bits = c.flagBits := by
  refine ⟨s.instruction.encode, ?_, CodeBuffer.toList_emit, bits_requiredFlags h⟩
  rw [code?_eq_map_encode, h, Option.map_some, resolved_zero]

end Command

/-! ### Clauses -/

/-- The table gives the code of a loop's body, with the breaks going to its end. -/
theorem bodyCode?_eq_map_encodeAll (body : List (Command .loopBody)) :
    bodyCode? declared body =
      (body.mapM (Command.statement? declared)).map (encodeAll <| resolveAll ·) := by
  induction body with
  | nil => rfl
  | cons c body ih =>
      simp only [bodyCode?, ih, List.mapM_cons, Command.code?_eq_map_encode]
      cases body.mapM (Command.statement? declared) with
      | none => cases c.statement? declared <;> rfl
      | some statements =>
          simp only [Option.map_some, Option.bind_eq_bind, Option.bind_some,
            length_encodeAll_resolveAll]
          cases c.statement? declared <;> rfl

namespace Clause

/-- The table gives the code of the blocks that a clause adds. -/
theorem code?_eq_map_encodeAll (c : Clause) :
    c.code? declared =
      (c.blocks? declared).map fun blocks => encodeAll (Block.instructionsOf blocks) := by
  cases c with
  | remark | declaration => rfl
  | statement c =>
      rw [code?, blocks?, Command.code?_eq_map_encode]
      cases c.statement? declared with
      | none => rfl
      | some s =>
          show some (s.resolved 0).encode = some (s.instruction.encode ++ [])
          rw [resolved_zero, List.append_nil]
  | loop body =>
      rw [code?, blocks?, bodyCode?_eq_map_encodeAll]
      cases body.mapM (Command.statement? declared) with
      | none => rfl
      | some statements =>
          have hjump : (backJump statements).encode =
              0x50 :: distanceField (-((encodeAll (resolveAll statements)).length + 3 : Nat)) := by
            rw [length_encodeAll_resolveAll, ← ofInt16_ofInt]
            exact congrArg (0x50 :: ·) (List.append_nil _)
          have hblock : encodeAll (Block.instructionsOf [.loop statements]) =
              encodeAll (resolveAll statements) ++ (backJump statements).encode := by
            simp [Block.instructionsOf, Block.instructions, Statement.loop]
          show some _ = some (encodeAll (Block.instructionsOf [.loop statements]))
          rw [hblock, hjump]

/-- The table gives the flags of the statements in the blocks that a clause adds. -/
theorem map_bits_requiredFlags {c : Clause} {blocks : List Block}
    (h : c.blocks? declared = some blocks) :
    (blocks.flatMap Block.statements).map (·.requiredFlags.bits) = c.flagBits := by
  cases c with
  | remark | declaration =>
      cases h
      rfl
  | statement c =>
      obtain ⟨s, hs, hblocks⟩ := Option.bind_eq_some_iff.mp h
      cases hblocks
      exact congrArg (fun b => [b]) (Command.bits_requiredFlags hs)
  | loop body =>
      obtain ⟨statements, hbody, hblocks⟩ := Option.bind_eq_some_iff.mp h
      cases hblocks
      show (statements ++ []).map _ = _
      rw [List.append_nil]
      exact Command.map_bits_requiredFlags hbody

/-- The table gives the tag of the last instruction that a clause adds. -/
theorem lastTag?_eq {c : Clause} {blocks : List Block} (h : c.blocks? declared = some blocks) :
    (Block.instructionsOf blocks).getLast?.map (·.opcode.toByte) = c.lastTag? := by
  cases c with
  | remark | declaration =>
      cases h
      rfl
  | statement c =>
      obtain ⟨s, hs, hblocks⟩ := Option.bind_eq_some_iff.mp h
      cases hblocks
      exact congrArg some (Command.toByte_opcode hs)
  | loop body =>
      obtain ⟨statements, -, hblocks⟩ := Option.bind_eq_some_iff.mp h
      cases hblocks
      have hlast : (Block.instructionsOf [.loop statements]).getLast? =
          some (backJump statements) := by
        simp [Block.instructionsOf, Block.instructions, Statement.loop]
      rw [hlast]
      rfl

end Clause

/-! ### Programs -/

variable {clauses : List Clause}

/-- The table gives the code of the blocks that clauses add. -/
theorem codeOf?_eq_map_encodeAll (declared : List Variable) (clauses : List Clause) :
    codeOf? declared clauses =
      (blocksOf? declared clauses).map fun blocks => encodeAll (Block.instructionsOf blocks) := by
  induction clauses generalizing declared with
  | nil => rfl
  | cons c clauses ih =>
      rw [codeOf?, blocksOf?, ih, Clause.code?_eq_map_encodeAll]
      cases c.blocks? declared with
      | none => rfl
      | some front =>
          cases blocksOf? (declared ++ c.declarations) clauses with
          | none => rfl
          | some back =>
              show some _ = some (encodeAll (Block.instructionsOf (front ++ back)))
              rw [Block.instructionsOf_append, encodeAll_append]

theorem map_bits_requiredFlags {blocks : List Block}
    (h : blocksOf? declared clauses = some blocks) :
    (blocks.flatMap Block.statements).map (·.requiredFlags.bits) =
      clauses.flatMap Clause.flagBits := by
  induction clauses generalizing declared blocks with
  | nil =>
      cases h
      rfl
  | cons c clauses ih =>
      obtain ⟨front, hfront, back, hback, rfl⟩ := blocksOf?_cons_eq_some_iff.mp h
      rw [List.flatMap_append, List.map_append, Clause.map_bits_requiredFlags hfront, ih hback,
        List.flatMap_cons]

theorem getLast?_filterMap_lastTag? {blocks : List Block}
    (h : blocksOf? declared clauses = some blocks) :
    (clauses.filterMap Clause.lastTag?).getLast? =
      (Block.instructionsOf blocks).getLast?.map (·.opcode.toByte) := by
  induction clauses generalizing declared blocks with
  | nil =>
      cases h
      rfl
  | cons c clauses ih =>
      obtain ⟨front, hfront, back, hback, rfl⟩ := blocksOf?_cons_eq_some_iff.mp h
      rw [Block.instructionsOf_append, List.getLast?_append, Option.map_or, ← ih hback,
        Clause.lastTag?_eq hfront, List.filterMap_cons]
      cases c.lastTag? with
      | none => exact (Option.or_none).symm
      | some tag =>
          rw [List.getLast?_cons]
          cases (clauses.filterMap Clause.lastTag?).getLast? <;> rfl

/-- An exit is added to the code of the blocks if the table says so. -/
theorem encodeAll_closed {blocks : List Block} (h : blocksOf? declared clauses = some blocks) :
    encodeAll (Instruction.closed (Block.instructionsOf blocks)) =
      encodeAll (Block.instructionsOf blocks) ++ exitBehind clauses := by
  have hexit : (Block.instructionsOf blocks).getLast?.map opcode = some .exit ↔
      (clauses.filterMap Clause.lastTag?).getLast? = some 0xFF := by
    rw [getLast?_filterMap_lastTag? h]
    cases (Block.instructionsOf blocks).getLast? with
    | none => simp
    | some i =>
        have hbyte : Opcode.ofByte? 0xFF = some i.opcode ↔ 0xFF = i.opcode.toByte :=
          Opcode.ofByte?_eq_some_iff
        simpa [Opcode.ofByte?, eq_comm] using hbyte
  rw [Instruction.closed, exitBehind]
  by_cases hlast : (clauses.filterMap Clause.lastTag?).getLast? = some 0xFF
  · rw [if_pos (hexit.mpr hlast), if_pos hlast, List.append_nil]
  · rw [if_neg (mt hexit.mp hlast), if_neg hlast, encodeAll_append]
    rfl

/-- The flags that statements use, bit by bit. -/
theorem bits_foldl_requiredFlags (flags : Flags) (statements : List Statement) :
    (statements.foldl (fun flags s => flags ∪ s.requiredFlags) flags).bits =
      (statements.map (·.requiredFlags.bits)).foldl (· ||| ·) flags.bits := by
  induction statements generalizing flags with
  | nil => rfl
  | cons s statements ih =>
      rw [List.foldl_cons, ih, List.map_cons, List.foldl_cons]
      rfl

/-- The program of clauses whose names are bound has the code and the flags of the table. -/
theorem code_and_flags_of_isScoped (h : IsScoped clauses) (variableCount : Nat) :
    ∃ code, codeOf? [] clauses = some code ∧
      (Program.ofBlocks (blocksOf clauses) variableCount).code.toList =
        code ++ exitBehind clauses ∧
      (Program.ofBlocks (blocksOf clauses) variableCount).flags.bits = flagBitsOf clauses := by
  have hblocks : blocksOf? [] clauses = some (blocksOf clauses) :=
    blocksOf?_eq_some_iff.mpr ⟨h, rfl⟩
  refine ⟨encodeAll (Block.instructionsOf (blocksOf clauses)), ?_, ?_, ?_⟩
  · rw [codeOf?_eq_map_encodeAll, hblocks]
    rfl
  · calc
      (CodeBuffer.ofInstructions (Instruction.closed
          (Block.instructionsOf (blocksOf clauses)))).toList =
          encodeAll (Instruction.closed (Block.instructionsOf (blocksOf clauses))) :=
        CodeBuffer.toList_ofInstructions
      _ = encodeAll (Block.instructionsOf (blocksOf clauses)) ++ exitBehind clauses :=
        encodeAll_closed hblocks
  · calc
      (Block.flagsOf (blocksOf clauses)).bits =
          (((blocksOf clauses).flatMap Block.statements).map
            (·.requiredFlags.bits)).foldl (· ||| ·) 0 := bits_foldl_requiredFlags ∅ _
      _ = flagBitsOf clauses := by rw [map_bits_requiredFlags hblocks, flagBitsOf]

/-- What compiles has the code and the flags of the table. -/
theorem code_and_flags_of_compile {options : CompileOptions} {source : Bytes} {p : Program}
    (h : compile options source = .ok p) :
    ∃ clauses code, IsRendering clauses source ∧ codeOf? [] clauses = some code ∧
      p.code.toList = code ++ exitBehind clauses ∧ p.flags.bits = flagBitsOf clauses := by
  obtain ⟨clauses, hs, hscoped, -, -, rfl⟩ := exists_isRendering_of_compile h
  obtain ⟨code, hcode, hbytes, hflags⟩ := code_and_flags_of_isScoped hscoped _
  exact ⟨clauses, code, hs, hcode, hbytes, hflags⟩

end ConsoleScript.Grammar
