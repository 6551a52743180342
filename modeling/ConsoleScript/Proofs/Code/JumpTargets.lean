import ConsoleScript.Proofs.Code.Facilities

/-!
# Where the jumps of a program go

The jump behind a loop's body goes to the start of the body and every conditional break
goes to that jump, if the body is not too long. This is said twice: of the fields in the
code, and of the instructions with the lengths of the code between them.

## Implementation notes

How far a jump goes is compared with the code between it and its target, so the place of
a block in the code does not matter and programs are put together block by block.
-/

namespace ConsoleScript

open Instruction Statement

/-! ### Fields -/

/-- The signed 16-bit field at an offset of the code, counted from its end, leads to the
target. -/
def JumpsTo (code : Bytes) (field target : Nat) : Prop :=
  ∃ low high, code[field]? = some low ∧ code[field + 1]? = some high ∧
    ((field + 2 : Nat) : Int) + (Bytes.toInt16 low high).toInt = target

/-- The loop with the body stands at an offset of the code, and its jumps lead to the
start and the end of the body. -/
structure LoopResolves (code : Bytes) (start : Nat) (body : List Statement) : Prop where
  placed : encodeAll (resolveAll body) <+: code.drop start
  jump_opcode : code[start + codeSize body]? = some Opcode.jump.toByte
  jump : JumpsTo code (start + codeSize body + 1) start
  breaks : ∀ front value back, body = front ++ .breakIfLast value :: back →
    code[start + codeSize front]? = some Opcode.jumpIfLast.toByte ∧
      JumpsTo code (start + codeSize front + 2) (start + codeSize body)

variable {code before after : Bytes} {body : List Statement} {n : Int16} {target : Nat}

theorem jumpsTo_of_append (hcode : code = before ++ (Bytes.ofInt16 n ++ after))
    (htarget : ((before.length + 2 : Nat) : Int) + n.toInt = target) :
    JumpsTo code before.length target := by
  obtain ⟨low, high, hfield, hn⟩ := Bytes.toInt16_ofInt16 n
  rw [hfield] at hcode
  refine ⟨low, high, ?_, ?_, by rw [hn, htarget]⟩
  · simp [hcode]
  · simp [hcode]

theorem getElem?_length_of_append {b : UInt8} (hcode : code = before ++ b :: after) :
    code[before.length]? = some b := by
  rw [hcode, List.getElem?_append_right (Nat.le_refl _), Nat.sub_self, List.getElem?_cons_zero]

theorem toInt_ofInt_codeSize (h : codeSize body ≤ LoopBody.maxSize) :
    (Int16.ofInt (codeSize body)).toInt = codeSize body := by
  rw [LoopBody.maxSize] at h
  exact Int16.toInt_ofInt_of_le (by omega) (by omega)

theorem toInt_ofInt_backJump (h : codeSize body ≤ LoopBody.maxSize) :
    (Int16.ofInt (-(codeSize body + 3 : Nat))).toInt = -(codeSize body + 3 : Nat) := by
  rw [LoopBody.maxSize] at h
  exact Int16.toInt_ofInt_of_le (by omega) (by omega)

/-- The code of a loop around the field of its jump. -/
theorem loop_eq_jump :
    encodeAll (Statement.loop body) = encodeAll (resolveAll body) ++
      Opcode.jump.toByte :: Bytes.ofInt16 (Int16.ofInt (-(codeSize body + 3 : Nat))) := by
  simp [Statement.loop, backJump, encode, Operand.encode]

/-- The code of a loop around the field of one of its breaks. -/
theorem loop_eq_break (front back : List Statement) (value : UInt8) :
    ∃ before after, encodeAll (Statement.loop (front ++ .breakIfLast value :: back)) =
        before ++ Opcode.jumpIfLast.toByte :: value ::
          (Bytes.ofInt16 (Int16.ofInt (codeSize back)) ++ after) ∧
      before.length = codeSize front := by
  obtain ⟨is, hsplit, hlength, -⟩ := resolveAll_append front (.breakIfLast value :: back)
  refine ⟨encodeAll is, encodeAll (resolveAll back) ++
    (backJump (front ++ .breakIfLast value :: back)).encode, ?_, hlength⟩
  rw [Statement.loop, hsplit, resolveAll]
  simp [resolved, encode, Operand.encode]

/-- The jumps of a loop whose body is not too long lead where they should, whatever
stands around the loop. -/
theorem loopResolves_of_append (hcode : code = before ++ (encodeAll (Statement.loop body) ++ after))
    (hfits : codeSize body ≤ LoopBody.maxSize) : LoopResolves code before.length body := by
  have hstop : before.length + codeSize body =
      (before ++ encodeAll (resolveAll body)).length := by simp
  have hjump : code = (before ++ encodeAll (resolveAll body)) ++ Opcode.jump.toByte ::
      (Bytes.ofInt16 (Int16.ofInt (-(codeSize body + 3 : Nat))) ++ after) := by
    rw [hcode, loop_eq_jump]
    simp
  constructor
  · rw [hjump, List.append_assoc, List.drop_left]
    exact List.prefix_append _ _
  · rw [hstop]
    exact getElem?_length_of_append hjump
  · have hfield : before.length + codeSize body + 1 =
        (before ++ encodeAll (resolveAll body) ++ [Opcode.jump.toByte]).length := by simp; omega
    rw [hfield]
    apply jumpsTo_of_append (hjump.trans (List.append_cons _ _ _))
    rw [toInt_ofInt_backJump hfits, ← hfield]
    omega
  · rintro front value back rfl
    obtain ⟨s, tail, hbreak, hlength⟩ := loop_eq_break front back value
    have hsplit : code = (before ++ s) ++ Opcode.jumpIfLast.toByte :: value ::
        (Bytes.ofInt16 (Int16.ofInt (codeSize back)) ++ (tail ++ after)) := by
      rw [hcode, hbreak]
      simp
    have hopcode : before.length + codeSize front = (before ++ s).length := by simp [hlength]
    have hfield : before.length + codeSize front + 2 =
        (before ++ s ++ [Opcode.jumpIfLast.toByte, value]).length := by
      simp [hlength, Nat.add_assoc]
    have hback : codeSize back ≤ LoopBody.maxSize := by
      rw [codeSize_append, codeSize_cons] at hfits
      omega
    constructor
    · rw [hopcode]
      exact getElem?_length_of_append hsplit
    · rw [hfield]
      apply jumpsTo_of_append (hsplit.trans (List.append_assoc _ [_, _] _).symm)
      rw [toInt_ofInt_codeSize hback, ← hfield, codeSize_append, codeSize_cons, size_breakIfLast]
      omega

/-! ### Sequences of instructions -/

/-- Each conditional jump goes to the first jump behind it. -/
def BreaksLand (is : List Instruction) : Prop :=
  ∀ front i back, is = front ++ i :: back → i.opcode = .jumpIfLast →
    ∃ between j tail, back = between ++ j :: tail ∧ (∀ k ∈ between, k.opcode ≠ .jump) ∧
      j.opcode = .jump ∧ ∃ n, i.distance? = some n ∧ n.toInt = ((encodeAll between).length : Int)

/-- Each jump goes back over itself and instructions in front of it. -/
def JumpsLand (is : List Instruction) : Prop :=
  ∀ front i back, is = front ++ i :: back → i.opcode = .jump →
    ∃ head between, front = head ++ between ∧
      ∃ n, i.distance? = some n ∧ n.toInt = -(((encodeAll between).length + i.size : Nat) : Int)

variable {is js front back : List Instruction} {i : Instruction}

/-- An element of two lists, one behind the other, is one of the first or of the second. -/
theorem append_eq_append_cons_iff {α : Type} {as bs front back : List α} {a : α} :
    as ++ bs = front ++ a :: back ↔
      (∃ mid, as = front ++ a :: mid ∧ back = mid ++ bs) ∨
        ∃ mid, front = as ++ mid ∧ bs = mid ++ a :: back := by
  rw [List.append_eq_append_iff]
  constructor
  · rintro (⟨mid, rfl, rfl⟩ | ⟨mid, rfl, hback⟩)
    · exact .inr ⟨mid, rfl, rfl⟩
    · cases mid with
      | nil => exact .inr ⟨[], by simp, hback.symm⟩
      | cons b mid =>
          cases hback
          exact .inl ⟨mid, rfl, rfl⟩
  · rintro (⟨mid, rfl, rfl⟩ | ⟨mid, rfl, rfl⟩)
    · exact .inr ⟨a :: mid, rfl, rfl⟩
    · exact .inl ⟨mid, rfl, rfl⟩

theorem BreaksLand.append (his : BreaksLand is) (hjs : BreaksLand js) : BreaksLand (is ++ js) := by
  intro front i back hsplit hop
  rcases append_eq_append_cons_iff.mp hsplit with ⟨mid, hi, rfl⟩ | ⟨mid, rfl, hj⟩
  · obtain ⟨between, j, tail, rfl, hbetween, hj, hn⟩ := his front i mid hi hop
    exact ⟨between, j, tail ++ js, by simp, hbetween, hj, hn⟩
  · exact hjs mid i back hj hop

theorem JumpsLand.append (his : JumpsLand is) (hjs : JumpsLand js) : JumpsLand (is ++ js) := by
  intro front i back hsplit hop
  rcases append_eq_append_cons_iff.mp hsplit with ⟨mid, hi, rfl⟩ | ⟨mid, rfl, hj⟩
  · exact his front i mid hi hop
  · obtain ⟨head, between, rfl, hn⟩ := hjs mid i back hj hop
    exact ⟨is ++ head, between, (List.append_assoc _ _ _).symm, hn⟩

theorem breaksLand_of_ne (h : ∀ i ∈ is, i.opcode ≠ .jumpIfLast) : BreaksLand is := by
  rintro front i back rfl hop
  exact absurd hop (h i (by simp))

theorem jumpsLand_of_ne (h : ∀ i ∈ is, i.opcode ≠ .jump) : JumpsLand is := by
  rintro front i back rfl hop
  exact absurd hop (h i (by simp))

theorem opcode_instruction_ne_jump (s : Statement) : s.instruction.opcode ≠ .jump := by
  cases s <;> exact nofun

theorem opcode_ne_jump_of_mem_resolveAll (h : i ∈ resolveAll body) : i.opcode ≠ .jump := by
  obtain ⟨behind, s, rfl⟩ := exists_of_mem_resolveAll h
  rw [opcode_resolved]
  exact opcode_instruction_ne_jump s

/-- The breaks of a body that is not too long go over what stands behind them in it. -/
theorem breaksLand_loop_tail {j : Instruction} (hj : j.opcode = .jump)
    (hfits : codeSize body ≤ LoopBody.maxSize) : BreaksLand (resolveAll body ++ [j]) := by
  induction body with
  | nil =>
      apply breaksLand_of_ne
      intro i hi
      rw [List.mem_singleton.mp hi, hj]
      exact nofun
  | cons s body ih =>
      rw [codeSize_cons] at hfits
      intro front i back hsplit hop
      cases front with
      | nil =>
          cases hsplit
          obtain ⟨value, rfl⟩ : ∃ value, s = .breakIfLast value := by
            cases s <;> first | exact ⟨_, rfl⟩ | cases hop
          refine ⟨resolveAll body, j, [], rfl, fun k => opcode_ne_jump_of_mem_resolveAll, hj,
            Int16.ofInt (codeSize body), rfl, ?_⟩
          rw [length_encodeAll_resolveAll]
          exact toInt_ofInt_codeSize (by omega)
      | cons f front =>
          obtain ⟨-, htail⟩ := List.cons.inj hsplit
          exact ih (by omega) front i back htail hop

theorem jumpsLand_loop (hfits : codeSize body ≤ LoopBody.maxSize) :
    JumpsLand (Statement.loop body) := by
  intro front i back hsplit hop
  rcases append_eq_append_cons_iff.mp hsplit with ⟨mid, hbody, -⟩ | ⟨mid, rfl, hjump⟩
  · have hi : i ∈ resolveAll body := by
      rw [hbody]
      simp
    exact absurd hop (opcode_ne_jump_of_mem_resolveAll hi)
  · obtain ⟨rfl, rfl, -⟩ : mid = [] ∧ i = backJump body ∧ back = [] := by
      simpa [List.append_eq_cons_iff, eq_comm] using hjump
    refine ⟨[], resolveAll body, List.append_nil _, _, rfl, ?_⟩
    rw [length_encodeAll_resolveAll, size_backJump]
    exact toInt_ofInt_backJump hfits

namespace Block

variable {blocks : List Block}

theorem breaksLand_instructions {b : Block} (hfits : b.Fits)
    (hbreak : ∀ value, b ≠ .statement (.breakIfLast value)) : BreaksLand b.instructions := by
  cases b with
  | loop body => exact breaksLand_loop_tail rfl hfits
  | statement s =>
      apply breaksLand_of_ne
      intro i hi
      rw [List.mem_singleton.mp hi]
      cases s with
      | breakIfLast value => exact absurd rfl (hbreak value)
      | _ => exact nofun

theorem jumpsLand_instructions {b : Block} (hfits : b.Fits) : JumpsLand b.instructions := by
  cases b with
  | loop body => exact jumpsLand_loop hfits
  | statement s =>
      apply jumpsLand_of_ne
      intro i hi
      rw [List.mem_singleton.mp hi]
      exact opcode_instruction_ne_jump s

/-- The breaks of a program whose loops are not too long, and which has none outside of
them. -/
theorem breaksLand_closed (hfits : ∀ b ∈ blocks, b.Fits)
    (hbreak : ∀ value, .statement (.breakIfLast value) ∉ blocks) :
    BreaksLand (Instruction.closed (instructionsOf blocks)) := by
  have hblocks : BreaksLand (instructionsOf blocks) := by
    induction blocks with
    | nil => exact breaksLand_of_ne fun i hi => absurd hi List.not_mem_nil
    | cons b blocks ih =>
        have hb : BreaksLand b.instructions := by
          apply breaksLand_instructions (hfits b List.mem_cons_self)
          rintro value rfl
          exact hbreak value List.mem_cons_self
        apply hb.append
        apply ih
        · exact fun c hc => hfits c (List.mem_cons_of_mem b hc)
        · exact fun value hvalue => hbreak value (List.mem_cons_of_mem b hvalue)
  obtain ⟨tail, htail, hexits⟩ := closed_eq_append (instructionsOf blocks)
  rw [htail]
  apply hblocks.append
  apply breaksLand_of_ne
  intro i hi
  rw [hexits i hi]
  exact nofun

/-- The jumps of a program whose loops are not too long. -/
theorem jumpsLand_closed (hfits : ∀ b ∈ blocks, b.Fits) :
    JumpsLand (Instruction.closed (instructionsOf blocks)) := by
  have hblocks : JumpsLand (instructionsOf blocks) := by
    induction blocks with
    | nil => exact jumpsLand_of_ne fun i hi => absurd hi List.not_mem_nil
    | cons b blocks ih =>
        have hb : JumpsLand b.instructions :=
          jumpsLand_instructions (hfits b List.mem_cons_self)
        exact hb.append (ih fun c hc => hfits c (List.mem_cons_of_mem b hc))
  obtain ⟨tail, htail, hexits⟩ := closed_eq_append (instructionsOf blocks)
  rw [htail]
  apply hblocks.append
  apply jumpsLand_of_ne
  intro i hi
  rw [hexits i hi]
  exact nofun

end Block

end ConsoleScript
