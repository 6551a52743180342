import ConsoleScript.Proofs.Code.JumpTargets
import ConsoleScript.Proofs.Grammar.Origin
import ConsoleScript.Proofs.Listing.Compiled
import ConsoleScript.Proofs.Listing.Control

/-!
# Jumps of compiled programs

Every jump of a compiled program goes where its loop says, both in the code and in the
listing that decoding gives.
-/

namespace ConsoleScript

open Instruction Listing

variable {is front back : List Instruction} {i : Instruction} {n : Int16}

/-- What jumps where both kinds of jumps land goes to an instruction. -/
theorem exists_target_of_distance? (hbreaks : BreaksLand is) (hjumps : JumpsLand is)
    (hsplit : is = front ++ i :: back)
    (hkinds : i.operands.map Operand.kind = i.opcode.operandKinds) (hn : i.distance? = some n) :
    ∃ before j after, is = before ++ j :: after ∧
      (((encodeAll front).length + i.size : Nat) : Int) + n.toInt = (encodeAll before).length := by
  have hjump := isJump_of_distance? hkinds hn
  cases hop : i.opcode with
  | jumpIfLast =>
      obtain ⟨between, j, tail, rfl, -, -, m, hm, hlength⟩ := hbreaks front i back hsplit hop
      obtain rfl : m = n := Option.some.inj (hm.symm.trans hn)
      refine ⟨front ++ i :: between, j, tail, by rw [hsplit]; simp, ?_⟩
      rw [hlength, encodeAll_append, encodeAll_cons, List.length_append, List.length_append,
        length_encode]
      omega
  | jump =>
      obtain ⟨head, between, rfl, m, hm, hlength⟩ := hjumps front i back hsplit hop
      obtain rfl : m = n := Option.some.inj (hm.symm.trans hn)
      obtain ⟨j, after, hafter⟩ : ∃ j after, between ++ i :: back = j :: after := by
        cases between with
        | nil => exact ⟨i, back, rfl⟩
        | cons j between => exact ⟨j, between ++ i :: back, rfl⟩
      refine ⟨head, j, after, by rw [hsplit, List.append_assoc, hafter], ?_⟩
      rw [hlength, encodeAll_append, List.length_append]
      omega
  | _ =>
      rw [hop] at hjump
      cases hjump

/-- A layout in which the jumps land has no jump fault. -/
theorem jumpFault?_layout_eq_none (hbreaks : BreaksLand is) (hjumps : JumpsLand is)
    (hkinds : ∀ i ∈ is, i.operands.map Operand.kind = i.opcode.operandKinds)
    (hlength : (encodeAll is).length < 2 ^ 63) :
    (ofEntries (layout 0 is) (encodeAll is).length).jumpFault? = none := by
  rw [jumpFault?_eq_none_iff]
  intro e he
  obtain ⟨front, i, back, hsplit, rfl⟩ := mem_layout_iff.mp he
  rw [Nat.zero_add, faultOf?_eq_none_iff]
  intro target htarget
  obtain ⟨n, hn, -⟩ : ∃ n, i.distance? = some n ∧ _ := Option.map_eq_some_iff.mp htarget
  obtain ⟨before, j, after, hland, hdistance⟩ := exists_target_of_distance? hbreaks hjumps hsplit
    (hkinds i (by rw [hsplit]; simp)) hn
  have hfront := length_encodeAll_add_size_le hsplit
  have hbefore := length_encodeAll_add_size_le hland
  rw [target?_place hn (by omega) (by omega) hdistance] at htarget
  cases htarget
  refine ⟨Int.natCast_nonneg _, .inr ?_, ?_⟩
  · rw [Int.toNat_natCast]
    apply mem_addressesOf_iff.mpr
    refine ⟨_, mem_layout_iff.mpr ⟨before, j, after, hland, rfl⟩, ?_⟩
    rw [Entry.offset_place, Nat.zero_add]
  · rw [lastTarget_of_lt hlength]
    show ((encodeAll before).length : Int) ≤ (encodeAll is).length
    omega

/-- A break in a layout goes to the entry of the first jump behind it. -/
theorem exists_jump_of_layout_eq (hbreaks : BreaksLand is)
    (hlength : (encodeAll is).length < 2 ^ 63) {before after : List Entry} {e : Entry}
    (hsplit : layout 0 is = before ++ e :: after) (hop : e.opcode = .jumpIfLast) :
    ∃ j, after.find? (·.opcode == .jump) = some j ∧ e.target? = some (j.offset : Int) := by
  obtain ⟨front, i, back, his, rfl, rfl⟩ := exists_split_of_layout_eq hsplit
  obtain ⟨between, j, tail, rfl, hbetween, hj, n, hn, hdistance⟩ := hbreaks front i back his hop
  rw [Nat.zero_add]
  refine ⟨.place ((encodeAll front).length + i.size + (encodeAll between).length) j, ?_, ?_⟩
  · rw [layout_append, layout_cons, List.find?_append]
    have hnone : (layout ((encodeAll front).length + i.size) between).find?
        (·.opcode == .jump) = none := by
      rw [List.find?_eq_none]
      intro e he hjump
      obtain ⟨between', k, tail', rfl, rfl⟩ := mem_layout_iff.mp he
      exact hbetween k (by simp) (beq_iff_eq.mp hjump)
    rw [hnone, Option.none_or, List.find?_cons_of_pos (by simpa using hj)]
  · have hfront := length_encodeAll_add_size_le his
    have hland := length_encodeAll_add_size_le
      (show is = (front ++ i :: between) ++ j :: tail by rw [his]; simp)
    rw [encodeAll_append, encodeAll_cons, List.length_append, List.length_append,
      length_encode] at hland
    refine target?_place hn (by omega) ?_ ?_
    · rw [Entry.offset_place]
      omega
    · rw [hdistance, Entry.offset_place]
      omega

variable {options : CompileOptions} {source : Bytes} {p : Program}

/-- The jumps of a compiled source. Each loop whose body is not too long, which holds for
all loops if jumps are checked, jumps back to the start of its body and breaks to that
jump, whatever stands in front of it and behind it. If no loop is too long and no string
holds a zero, the listing of the code has no jump fault, and each break goes to the first
jump behind it. A listing's offsets are 64-bit words and its targets are signed, so this is
about code whose size is below the sign bit, as that of all code in memory is. -/
theorem jumps_resolve_of_compile (h : compile options source = .ok p) :
    (∀ before body after,
      (Script.read options.maxVariables source).blocks = before ++ .loop body :: after →
        (options.jumpRange = .checked → Statement.codeSize body ≤ LoopBody.maxSize) ∧
        (Statement.codeSize body ≤ LoopBody.maxSize → LoopResolves p.code.toList
          (encodeAll (Block.instructionsOf before)).length body)) ∧
    ((∀ b ∈ (Script.read options.maxVariables source).blocks, b.Fits) →
      (∀ i ∈ emitted options source, ∀ o ∈ i.operands, o.Delimited) →
      p.code.size < 2 ^ 63 →
      ∃ l, decode p.code.toList = .ok l ∧ l.jumpFault? = none ∧
        ∀ before e after, l.entries = before ++ e :: after → e.opcode = .jumpIfLast →
          ∃ j, after.find? (·.opcode == .jump) = some j ∧ e.target? = some (j.offset : Int)) := by
  have hcode := toList_code_of_compile h
  constructor
  · intro before body after hblocks
    constructor
    · intro hchecked
      exact (compile_eq_ok_iff_read.mp h).2.1 hchecked (.loop body) (by rw [hblocks]; simp)
    · intro hfits
      obtain ⟨tail, htail, -⟩ := closed_eq_append (Block.instructionsOf
        (Script.read options.maxVariables source).blocks)
      have hsplit : p.code.toList = encodeAll (Block.instructionsOf before) ++
          (encodeAll (Statement.loop body) ++
            encodeAll (Block.instructionsOf after ++ tail)) := by
        rw [hcode, emitted, Script.instructions, htail, hblocks, Block.instructionsOf_append,
          Block.instructionsOf_cons, Block.instructions]
        simp
      exact loopResolves_of_append hsplit hfits
  · intro hfits hdelimited hlength
    have hsize : p.code.size = (encodeAll (emitted options source)).length := by
      rw [← CodeBuffer.length_toList, hcode]
    rw [hsize] at hlength
    have hbreaks : BreaksLand (emitted options source) :=
      Block.breaksLand_closed hfits fun value => Script.ne_breakIfLast_of_mem_blocks
    obtain ⟨hdecode, -⟩ := (decode_code_eq_ok_iff h).mpr ⟨hdelimited, rfl⟩
    refine ⟨_, hdecode, ?_, ?_⟩
    · rw [hsize]
      exact jumpFault?_layout_eq_none hbreaks (Block.jumpsLand_closed hfits)
        (fun i hi => Block.kinds_of_mem_closed hi) hlength
    · intro before e after hsplit hop
      exact exists_jump_of_layout_eq hbreaks hlength hsplit hop

theorem jumps_resolve_of_break_and_print :
    ∃ p, compile {} (Bytes.ofString "putchar 'x'; loop \x7b breakiflast 5; print \"A\"; \x7d") =
        .ok p ∧
      LoopResolves p.code.toList 2 [.breakIfLast 5, .print [65]] ∧
      ∃ l, decode p.code.toList = .ok l ∧ l.jumpFault? = none := by
  have h : compile {} (Bytes.ofString "putchar 'x'; loop \x7b breakiflast 5; print \"A\"; \x7d") =
      .ok (.ofBlocks [.statement (.putChar 120), .loop [.breakIfLast 5, .print [65]]] 0) := by
    decide +kernel
  obtain ⟨hloops, hlisting⟩ := jumps_resolve_of_compile h
  obtain ⟨-, hresolves⟩ := hloops [.statement (.putChar 120)] [.breakIfLast 5, .print [65]] []
    (by decide +kernel)
  obtain ⟨l, hdecode, hfault, -⟩ := hlisting (by decide +kernel) (by decide +kernel)
    (by decide +kernel)
  exact ⟨_, h, hresolves (by decide), l, hdecode, hfault⟩

end ConsoleScript
