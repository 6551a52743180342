import ConsoleScript.Proofs.Listing.CompiledJumps

/-!
# Control in compiled loops

A loop of a listing is what stands from the target of a jump through the jump. In a compiled
program with checked jumps control never leaves a loop: breaks go to the loop's own jump,
and the jump goes back to the loop's start.
-/

namespace ConsoleScript

open Instruction Statement

/-! ### Loops of a program -/

namespace Block

variable {blocks : List Block} {front back : List Instruction} {i : Instruction}

theorem exists_loop_of_instructionsOf_eq
    (hbreak : ∀ value, .statement (.breakIfLast value) ∉ blocks)
    (hjump : i.opcode.isJump = true) (h : instructionsOf blocks = front ++ i :: back) :
    ∃ before body after inner rest, blocks = before ++ .loop body :: after ∧
      front = instructionsOf before ++ inner ∧ Statement.loop body = inner ++ i :: rest := by
  induction blocks generalizing front with
  | nil => simp [instructionsOf] at h
  | cons b blocks ih =>
      rw [instructionsOf_cons] at h
      rcases append_eq_append_cons_iff.mp h with ⟨mid, hb, -⟩ | ⟨mid, rfl, hlater⟩
      · cases b with
        | loop body => exact ⟨[], body, blocks, front, mid, rfl, rfl, hb⟩
        | statement s =>
            have hi : i ∈ instructions (.statement s) := by
              rw [hb]
              simp
            rw [List.mem_singleton.mp hi] at hjump
            cases s with
            | breakIfLast value => exact absurd List.mem_cons_self (hbreak value)
            | _ => cases hjump
      · have hlaterBreak : ∀ value, .statement (.breakIfLast value) ∉ blocks :=
          fun value hvalue => hbreak value (List.mem_cons_of_mem b hvalue)
        obtain ⟨before, body, after, inner, rest, rfl, rfl, hbody⟩ := ih hlaterBreak hlater
        refine ⟨b :: before, body, after, inner, rest, rfl, ?_, hbody⟩
        rw [instructionsOf_cons, List.append_assoc]

/-- Each jump and each break of a program stands in one of its loops. -/
theorem exists_loop_of_closed_eq
    (hbreak : ∀ value, .statement (.breakIfLast value) ∉ blocks)
    (hjump : i.opcode.isJump = true)
    (h : Instruction.closed (instructionsOf blocks) = front ++ i :: back) :
    ∃ before body after inner rest, blocks = before ++ .loop body :: after ∧
      front = instructionsOf before ++ inner ∧ Statement.loop body = inner ++ i :: rest := by
  obtain ⟨tail, htail, hexits⟩ := closed_eq_append (instructionsOf blocks)
  rw [htail] at h
  rcases append_eq_append_cons_iff.mp h with ⟨mid, hblocks, -⟩ | ⟨mid, -, hexit⟩
  · exact exists_loop_of_instructionsOf_eq hbreak hjump hblocks
  · have hi : i = ⟨.exit, []⟩ := hexits i (by rw [hexit]; simp)
    rw [hi] at hjump
    cases hjump

/-- The code of a program around one of its loops. -/
theorem exists_closed_eq_append_loop {before after : List Block} {body : List Statement}
    (h : blocks = before ++ .loop body :: after) :
    ∃ behind, Instruction.closed (instructionsOf blocks) =
      instructionsOf before ++ (Statement.loop body ++ behind) := by
  obtain ⟨tail, htail, -⟩ := closed_eq_append (instructionsOf blocks)
  refine ⟨instructionsOf after ++ tail, ?_⟩
  rw [htail, h, instructionsOf_append, instructionsOf_cons, instructions]
  simp

end Block

namespace Listing

variable {is before after : List Instruction} {body : List Statement} {e j : Entry}
  {start : Nat} {a b : Int} {l : Listing}

/-! ### A loop as a layout -/

/-- The jump of a loop whose body starts at an offset. -/
def loopJump (start : Nat) (body : List Statement) : Entry :=
  .place (start + codeSize body) (backJump body)

theorem length_encodeAll_loop :
    (encodeAll (Statement.loop body)).length = codeSize body + 3 := by
  simp [Statement.loop]

theorem loopJump_mem_layout : loopJump start body ∈ layout start (Statement.loop body) := by
  apply mem_layout_iff.mpr
  refine ⟨resolveAll body, backJump body, [], rfl, ?_⟩
  rw [length_encodeAll_resolveAll]
  rfl

/-- A loop's jump goes to the start of its body. -/
theorem target?_loopJump (hfits : codeSize body ≤ LoopBody.maxSize)
    (hlength : start + (encodeAll (Statement.loop body)).length < 2 ^ 63) :
    (loopJump start body).target? = some (start : Int) := by
  rw [length_encodeAll_loop] at hlength
  apply target?_place (n := Int16.ofInt (-(codeSize body + 3 : Nat))) rfl
  · rw [size_backJump]
    omega
  · omega
  · rw [size_backJump, toInt_ofInt_backJump hfits]
    omega

/-- What jumps inside a body that is not too long goes over what stands behind it. -/
theorem toInt_distance_of_resolveAll_eq {front back : List Instruction} {i : Instruction}
    {n : Int16} (hfits : codeSize body ≤ LoopBody.maxSize)
    (h : resolveAll body = front ++ i :: back) (hn : i.distance? = some n) :
    n.toInt = ((encodeAll back).length : Int) := by
  induction body generalizing front with
  | nil => simp [resolveAll] at h
  | cons s body ih =>
      rw [codeSize_cons] at hfits
      cases front with
      | cons f front => exact ih (by omega) (List.cons.inj h).2
      | nil =>
          obtain ⟨rfl, rfl⟩ := List.cons.inj h
          rw [length_encodeAll_resolveAll]
          cases s with
          | breakIfLast value =>
              obtain rfl : Int16.ofInt (codeSize body) = n := Option.some.inj hn
              exact toInt_ofInt_codeSize (by omega)
          | _ => cases hn

/-- An entry of a loop is the loop's jump, or it is none and jumps to the loop's jump if it
jumps at all. -/
theorem eq_loopJump_or (hfits : codeSize body ≤ LoopBody.maxSize)
    (hlength : start + (encodeAll (Statement.loop body)).length < 2 ^ 63)
    (he : e ∈ layout start (Statement.loop body)) :
    e = loopJump start body ∨
      (e.opcode ≠ .jump ∧ e.offset + e.size ≤ start + codeSize body ∧
        ∀ target, e.target? = some target → target = (start + codeSize body : Nat)) := by
  rw [length_encodeAll_loop] at hlength
  rw [Statement.loop, layout_append, length_encodeAll_resolveAll, List.mem_append] at he
  rcases he with hbody | hjump
  · right
    have hbounds := bounds_of_mem_layout hbody
    rw [length_encodeAll_resolveAll] at hbounds
    obtain ⟨front, i, back, hsplit, rfl⟩ := mem_layout_iff.mp hbody
    have hi : i ∈ resolveAll body := by
      rw [hsplit]
      simp
    refine ⟨opcode_ne_jump_of_mem_resolveAll hi, hbounds.2, ?_⟩
    intro target htarget
    obtain ⟨n, hn, -⟩ : ∃ n, i.distance? = some n ∧ _ := Option.map_eq_some_iff.mp htarget
    have hdistance := toInt_distance_of_resolveAll_eq hfits hsplit hn
    have hsize : codeSize body = (encodeAll front).length + (i.size + (encodeAll back).length) := by
      rw [← length_encodeAll_resolveAll, hsplit, encodeAll_append, encodeAll_cons,
        List.length_append, List.length_append, length_encode]
    have hplace : (Entry.place (start + (encodeAll front).length) i).target? =
        some ((start + codeSize body : Nat) : Int) :=
      target?_place hn (by omega) (by omega) (by omega)
    exact Option.some.inj (htarget.symm.trans hplace)
  · left
    exact List.mem_singleton.mp hjump

/-- A step from an instruction of a loop leads to an instruction of the same loop. -/
theorem exists_mem_loop_of_successor (hfits : codeSize body ≤ LoopBody.maxSize)
    (hlength : start + (encodeAll (Statement.loop body)).length < 2 ^ 63)
    (he : e ∈ layout start (Statement.loop body)) (hb : b ∈ e.successors) :
    ∃ f ∈ layout start (Statement.loop body), (f.offset : Int) = b := by
  have hend : (encodeAll (Statement.loop body)).length = codeSize body + 3 := length_encodeAll_loop
  have hstop := stop_of_mem_layout he (by omega)
  rcases Entry.mem_successors_iff.mp hb with ⟨-, hjump, rfl⟩ | htarget
  · -- the end of the loop is behind its jump, and control does not fall through a jump
    rcases eq_loopJump_or hfits hlength he with rfl | ⟨-, hbefore, -⟩
    · exact absurd rfl hjump
    · rcases starts_or_end he with ⟨f, hf, hoffset⟩ | hlast
      · exact ⟨f, hf, by rw [hoffset, hstop]⟩
      · omega
  · rcases eq_loopJump_or hfits hlength he with rfl | ⟨-, -, hforward⟩
    · obtain rfl : (start : Int) = b :=
        Option.some.inj ((target?_loopJump hfits hlength).symm.trans htarget)
      obtain ⟨i, tail, hloop⟩ : ∃ i tail, Statement.loop body = i :: tail :=
        List.exists_cons_of_ne_nil (by simp [Statement.loop])
      refine ⟨.place start i, ?_, rfl⟩
      rw [hloop]
      exact List.mem_cons_self
    · exact ⟨loopJump start body, loopJump_mem_layout, (hforward b htarget).symm⟩

/-- The only jump of a loop that goes back is the one behind its body. -/
theorem eq_loopJump (hfits : codeSize body ≤ LoopBody.maxSize)
    (hlength : start + (encodeAll (Statement.loop body)).length < 2 ^ 63)
    (he : e ∈ layout start (Statement.loop body)) (hop : e.opcode = .jump) :
    e = loopJump start body := by
  rcases eq_loopJump_or hfits hlength he with hjump | ⟨hnot, -⟩
  · exact hjump
  · exact absurd hop hnot

/-- A break goes to the jump of its loop. -/
theorem target?_of_break (hfits : codeSize body ≤ LoopBody.maxSize)
    (hlength : start + (encodeAll (Statement.loop body)).length < 2 ^ 63)
    (hkinds : e.operands.map Operand.kind = e.opcode.operandKinds)
    (he : e ∈ layout start (Statement.loop body)) (hop : e.opcode = .jumpIfLast) :
    e.target? = some ((loopJump start body).offset : Int) := by
  rcases eq_loopJump_or hfits hlength he with rfl | ⟨-, -, hforward⟩
  · cases hop
  · have hsome : e.target?.isSome := by
      rw [Entry.target?, Option.isSome_map, distance?_isSome_iff hkinds, hop]
      rfl
    obtain ⟨target, htarget⟩ := Option.isSome_iff_exists.mp hsome
    rw [htarget, hforward target htarget]
    rfl

/-- Only at an exit a run of control through a loop ends. -/
theorem exit_of_successors_eq_nil (hfits : codeSize body ≤ LoopBody.maxSize)
    (hlength : start + (encodeAll (Statement.loop body)).length < 2 ^ 63)
    (he : e ∈ layout start (Statement.loop body)) (hend : e.successors = []) :
    e.opcode = .exit := by
  by_contra hexit
  have hnone : ∀ a, a ∉ e.successors := by
    intro a
    rw [hend]
    exact List.not_mem_nil
  by_cases hjump : e.opcode = .jump
  · apply hnone start
    apply Entry.mem_successors_iff.mpr
    right
    rw [eq_loopJump hfits hlength he hjump]
    exact target?_loopJump hfits hlength
  · apply hnone e.stop
    exact Entry.mem_successors_iff.mpr (.inl ⟨hexit, hjump, rfl⟩)

/-- The instructions of a loop are those that stand between its start and its jump. -/
theorem mem_layout_loop_iff (his : is = before ++ (Statement.loop body ++ after)) :
    e ∈ layout (encodeAll before).length (Statement.loop body) ↔
      e ∈ layout 0 is ∧ (encodeAll before).length ≤ e.offset ∧
        e.offset ≤ (encodeAll before).length + codeSize body := by
  have hpos := e.toInstruction.size_pos
  rw [his, layout_append, layout_append, List.mem_append, List.mem_append, Nat.zero_add]
  constructor
  · intro he
    refine ⟨.inr (.inl he), (bounds_of_mem_layout he).1, ?_⟩
    rw [Statement.loop, layout_append, length_encodeAll_resolveAll, List.mem_append] at he
    rcases he with hbody | hjump
    · have hbounds := bounds_of_mem_layout hbody
      rw [length_encodeAll_resolveAll] at hbounds
      omega
    · rw [List.mem_singleton.mp hjump]
      exact le_rfl
  · rintro ⟨hfront | hloop | hback, hstart, hstop⟩
    · have hbounds := bounds_of_mem_layout hfront
      rw [size_of_mem_layout hfront] at hbounds
      omega
    · exact hloop
    · have hbounds := bounds_of_mem_layout hback
      rw [length_encodeAll_loop] at hbounds
      omega

/-! ### Loops of a listing -/

/-- An instruction of the loop that the jump closes starts at the address: the loop is from
the jump's target through the jump. -/
def InLoop (l : Listing) (j : Entry) (a : Int) : Prop :=
  l.Starts a ∧ ∃ start, j.target? = some start ∧ start ≤ a ∧ a ≤ j.offset

section Placed

variable (hl : l.entries = layout 0 is) (his : is = before ++ (Statement.loop body ++ after))
  (hfits : codeSize body ≤ LoopBody.maxSize) (hlength : (encodeAll is).length < 2 ^ 63)

include his hlength in
theorem length_add_loop_lt :
    (encodeAll before).length + (encodeAll (Statement.loop body)).length < 2 ^ 63 := by
  rw [his, encodeAll_append, encodeAll_append, List.length_append, List.length_append] at hlength
  omega

include hl his hfits hlength

theorem inLoop_loopJump_iff :
    l.InLoop (loopJump (encodeAll before).length body) a ↔
      ∃ e ∈ layout (encodeAll before).length (Statement.loop body), (e.offset : Int) = a := by
  rw [InLoop, target?_loopJump hfits (length_add_loop_lt his hlength), Starts, hl]
  constructor
  · rintro ⟨⟨e, he, rfl⟩, start, hstart, hfirst, hlast⟩
    obtain rfl := Option.some.inj hstart
    refine ⟨e, (mem_layout_loop_iff his).mpr ⟨he, Int.ofNat_le.mp hfirst, ?_⟩, rfl⟩
    exact Int.ofNat_le.mp hlast
  · rintro ⟨e, he, rfl⟩
    obtain ⟨he, hfirst, hlast⟩ := (mem_layout_loop_iff his).mp he
    exact ⟨⟨e, he, rfl⟩, _, rfl, Int.ofNat_le.mpr hfirst, Int.ofNat_le.mpr hlast⟩

/-- The entries that start at addresses of the loop are those of its layout. -/
theorem mem_layout_loop_of_inLoop (he : e ∈ l.entries)
    (ha : l.InLoop (loopJump (encodeAll before).length body) e.offset) :
    e ∈ layout (encodeAll before).length (Statement.loop body) := by
  obtain ⟨-, start, hstart, hfirst, hlast⟩ := ha
  rw [target?_loopJump hfits (length_add_loop_lt his hlength), Option.some.injEq] at hstart
  rw [← hstart] at hfirst
  rw [hl] at he
  exact (mem_layout_loop_iff his).mpr ⟨he, Int.ofNat_le.mp hfirst, Int.ofNat_le.mp hlast⟩

/-- No step leaves a loop. -/
theorem inLoop_of_step (ha : l.InLoop (loopJump (encodeAll before).length body) a)
    (h : l.Step a b) : l.InLoop (loopJump (encodeAll before).length body) b := by
  obtain ⟨e, he, rfl, hb⟩ := h
  have hloop := mem_layout_loop_of_inLoop hl his hfits hlength he ha
  apply (inLoop_loopJump_iff hl his hfits hlength).mpr
  exact exists_mem_loop_of_successor hfits (length_add_loop_lt his hlength) hloop hb

/-- No run of control leaves a loop. -/
theorem inLoop_of_reaches (ha : l.InLoop (loopJump (encodeAll before).length body) a)
    (h : l.Reaches a b) : l.InLoop (loopJump (encodeAll before).length body) b :=
  invariant_of_reaches (fun _ _ => inLoop_of_step hl his hfits hlength) ha h

end Placed

/-- A break in front of the first jump goes to this jump. -/
theorem target?_of_first_jump (hbreaks : BreaksLand is) (hlength : (encodeAll is).length < 2 ^ 63)
    (hkinds : ∀ i ∈ is, i.operands.map Operand.kind = i.opcode.operandKinds)
    {front back : List Entry} (hsplit : layout 0 is = front ++ j :: back)
    (hfront : ∀ e ∈ front, e.opcode ≠ .jump) (hj : j.opcode = .jump) (he : e ∈ front)
    (hb : e.target? = some b) : b = j.offset := by
  have hop : e.opcode = .jumpIfLast := by
    have hlayout : e ∈ layout 0 is := by
      rw [hsplit]
      exact List.mem_append_left _ he
    obtain ⟨first, i, last, rfl, rfl⟩ := mem_layout_iff.mp hlayout
    obtain ⟨n, hn, -⟩ : ∃ n, i.distance? = some n ∧ _ := Option.map_eq_some_iff.mp hb
    have hjump := isJump_of_distance? (hkinds i (by simp)) hn
    have hne := hfront _ he
    rw [Entry.toInstruction_place] at hne ⊢
    cases hi : i.opcode with
    | jumpIfLast => rfl
    | jump => exact absurd hi hne
    | _ =>
        rw [hi] at hjump
        cases hjump
  obtain ⟨first, last, rfl⟩ := List.append_of_mem he
  rw [List.append_assoc, List.cons_append] at hsplit
  obtain ⟨k, hfind, htarget⟩ := exists_jump_of_layout_eq hbreaks hlength hsplit hop
  have hnone : last.find? (·.opcode == .jump) = none := by
    rw [List.find?_eq_none]
    intro f hf hjump
    exact hfront f (by simp [hf]) (beq_iff_eq.mp hjump)
  rw [List.find?_append, hnone, Option.none_or, List.find?_cons_of_pos (by simpa using hj),
    Option.some.injEq] at hfind
  rw [hb, Option.some.injEq, ← hfind] at htarget
  exact htarget

/-- From the start of the code control stays on the instructions up to the first jump, if
this jump goes to one of them. -/
theorem starts_le_of_reaches (hl : l.entries = layout 0 is) (hbreaks : BreaksLand is)
    (hlength : (encodeAll is).length < 2 ^ 63)
    (hkinds : ∀ i ∈ is, i.operands.map Operand.kind = i.opcode.operandKinds)
    {front back : List Entry} (hsplit : l.entries = front ++ j :: back)
    (hfront : ∀ e ∈ front, e.opcode ≠ .jump) (hj : j.opcode = .jump)
    (hloop : ∀ b, l.Step j.offset b → l.Starts b ∧ b ≤ j.offset) (h : l.Reaches 0 a) :
    l.Starts a ∧ a ≤ j.offset := by
  have hlayout : layout 0 is = front ++ j :: back := hl.symm.trans hsplit
  have horder := pairwise_layout 0 is
  rw [hlayout, List.pairwise_append] at horder
  have hmem : ∀ e ∈ front ++ j :: back, e ∈ layout 0 is := fun e he => hlayout ▸ he
  have hstart : l.Starts 0 := by
    cases is with
    | nil => simp at hlayout
    | cons i is => exact ⟨.place 0 i, by rw [hl]; exact List.mem_cons_self, rfl⟩
  apply invariant_of_reaches _ ⟨hstart, Int.natCast_nonneg _⟩ h
  rintro a b ⟨-, hle⟩ ⟨e, he, rfl, hb⟩
  rw [hsplit, List.mem_append, List.mem_cons] at he
  rcases he with hmemFront | rfl | hback
  · have hbefore := horder.2.2 e hmemFront j List.mem_cons_self
    rcases Entry.mem_successors_iff.mp hb with ⟨-, -, rfl⟩ | htarget
    · have hin := hmem e (List.mem_append_left _ hmemFront)
      have hbounds := bounds_of_mem_layout (hmem j (by simp))
      rw [stop_of_mem_layout hin (by omega)]
      refine ⟨?_, Int.ofNat_le.mpr hbefore⟩
      rcases starts_or_end hin with ⟨f, hf, hoffset⟩ | hend
      · exact ⟨f, by rw [hl]; exact hf, by rw [hoffset]⟩
      · have hpos := j.toInstruction.size_pos
        rw [size_of_mem_layout (hmem j (by simp))] at hbounds
        omega
    · rw [target?_of_first_jump hbreaks hlength hkinds hlayout hfront hj hmemFront htarget]
      exact ⟨⟨j, by rw [hsplit]; simp, rfl⟩, le_rfl⟩
  · exact hloop b ⟨e, by rw [hsplit]; simp, rfl, hb⟩
  · have hbehind := (List.pairwise_cons.mp horder.2.1).1 e hback
    have hpos := j.toInstruction.size_pos
    rw [size_of_mem_layout (hmem j (by simp))] at hbehind
    omega

end Listing

open Listing

/-- Each jump and each break in the layout of a program is an entry of one of its loops. -/
theorem Block.exists_loop_of_mem_layout {blocks : List Block} {e : Entry}
    (hbreak : ∀ value, .statement (.breakIfLast value) ∉ blocks)
    (he : e ∈ layout 0 (Instruction.closed (instructionsOf blocks)))
    (hjump : e.opcode.isJump = true) :
    ∃ before body after, .loop body ∈ blocks ∧
      Instruction.closed (instructionsOf blocks) = before ++ (Statement.loop body ++ after) ∧
      e ∈ layout (encodeAll before).length (Statement.loop body) := by
  obtain ⟨front, i, back, hsplit, rfl⟩ := mem_layout_iff.mp he
  obtain ⟨before, body, after, inner, rest, hblocks, rfl, hbody⟩ :=
    exists_loop_of_closed_eq hbreak hjump hsplit
  obtain ⟨behind, hclosed⟩ := exists_closed_eq_append_loop hblocks
  refine ⟨instructionsOf before, body, behind, by rw [hblocks]; simp, hclosed, ?_⟩
  apply mem_layout_iff.mpr
  refine ⟨inner, i, rest, hbody, ?_⟩
  rw [encodeAll_append, List.length_append, Nat.zero_add]

namespace Listing

/-! ### Loops of the listing of a program -/

section Program

variable {blocks : List Block} {l : Listing} {e j : Entry} {a b : Int}
  (hl : l.entries = layout 0 (Instruction.closed (Block.instructionsOf blocks)))
  (hfits : ∀ b ∈ blocks, b.Fits) (hbreak : ∀ value, .statement (.breakIfLast value) ∉ blocks)
  (hlength : (encodeAll (Instruction.closed (Block.instructionsOf blocks))).length < 2 ^ 63)

include hl hfits hbreak hlength

/-- A jump of a program is the one behind the body of a loop that is not too long. -/
theorem exists_eq_loopJump (hj : j ∈ l.entries) (hop : j.opcode = .jump) :
    ∃ before body after, codeSize body ≤ LoopBody.maxSize ∧
      Instruction.closed (Block.instructionsOf blocks) =
        before ++ (Statement.loop body ++ after) ∧
      j = loopJump (encodeAll before).length body := by
  rw [hl] at hj
  obtain ⟨before, body, after, hbody, hsplit, hloop⟩ :=
    Block.exists_loop_of_mem_layout hbreak hj (by rw [hop]; rfl)
  have hsize : codeSize body ≤ LoopBody.maxSize := hfits (.loop body) hbody
  exact ⟨before, body, after, hsize, hsplit,
    eq_loopJump hsize (length_add_loop_lt hsplit hlength) hloop hop⟩

/-- A jump goes to an instruction of its loop. -/
theorem exists_inLoop_target (hj : j ∈ l.entries) (hop : j.opcode = .jump) :
    ∃ start, j.target? = some start ∧ l.InLoop j start := by
  obtain ⟨before, body, after, hbody, hsplit, rfl⟩ :=
    exists_eq_loopJump hl hfits hbreak hlength hj hop
  have hroom := length_add_loop_lt hsplit hlength
  refine ⟨_, target?_loopJump hbody hroom, ?_⟩
  apply (inLoop_loopJump_iff hl hsplit hbody hlength).mpr
  exact exists_mem_loop_of_successor hbody hroom loopJump_mem_layout
    (Entry.mem_successors_iff.mpr (.inr (target?_loopJump hbody hroom)))

/-- No run of control leaves the loop that a jump closes. -/
theorem inLoop_of_jump_of_reaches (hj : j ∈ l.entries) (hop : j.opcode = .jump)
    (ha : l.InLoop j a) (hab : l.Reaches a b) : l.InLoop j b := by
  obtain ⟨before, body, after, hbody, hsplit, rfl⟩ :=
    exists_eq_loopJump hl hfits hbreak hlength hj hop
  exact inLoop_of_reaches hl hsplit hbody hlength ha hab

/-- The breaks of a loop go to its jump, and a run of control ends at its exits only. -/
theorem break_and_end_of_inLoop (hj : j ∈ l.entries) (hop : j.opcode = .jump)
    (he : e ∈ l.entries) (hin : l.InLoop j e.offset) :
    (e.opcode = .jumpIfLast → e.target? = some (j.offset : Int)) ∧
      (e.successors = [] → e.opcode = .exit) := by
  obtain ⟨before, body, after, hbody, hsplit, rfl⟩ :=
    exists_eq_loopJump hl hfits hbreak hlength hj hop
  have hroom := length_add_loop_lt hsplit hlength
  have hloop := mem_layout_loop_of_inLoop hl hsplit hbody hlength he hin
  have hkinds : e.operands.map Operand.kind = e.opcode.operandKinds := by
    rw [hl] at he
    obtain ⟨front, i, back, his, rfl⟩ := mem_layout_iff.mp he
    have hi : i ∈ Instruction.closed (Block.instructionsOf blocks) := by
      rw [his]
      simp
    exact Block.kinds_of_mem_closed hi
  exact ⟨target?_of_break hbody hroom hkinds hloop,
    exit_of_successors_eq_nil hbody hroom hloop⟩

/-- Each break is in a loop. -/
theorem exists_inLoop_of_break (he : e ∈ l.entries) (hop : e.opcode = .jumpIfLast) :
    ∃ j ∈ l.entries, j.opcode = .jump ∧ l.InLoop j e.offset := by
  obtain ⟨before, body, after, hbody, hsplit, hloop⟩ :=
    Block.exists_loop_of_mem_layout hbreak (hl ▸ he) (by rw [hop]; rfl)
  refine ⟨loopJump (encodeAll before).length body, ?_, rfl, ?_⟩
  · rw [hl]
    exact ((mem_layout_loop_iff hsplit).mp loopJump_mem_layout).1
  · apply (inLoop_loopJump_iff hl hsplit (hfits (.loop body) hbody) hlength).mpr
    exact ⟨e, hloop, rfl⟩

/-- No run of control from the start of the code gets behind the first loop. -/
theorem not_reaches_of_first_jump {front back : List Entry}
    (hentries : l.entries = front ++ j :: back) (hop : j.opcode = .jump)
    (hfront : ∀ e ∈ front, e.opcode ≠ .jump) (he : e ∈ back) : ¬l.Reaches 0 e.offset := by
  intro hreach
  have hj : j ∈ l.entries := by
    rw [hentries]
    simp
  obtain ⟨start, htarget, -, -, -, -, hback⟩ :=
    exists_inLoop_target hl hfits hbreak hlength hj hop
  have hself : l.InLoop j j.offset := ⟨⟨j, hj, rfl⟩, start, htarget, hback, le_rfl⟩
  have hstep : ∀ b, l.Step j.offset b → l.Starts b ∧ b ≤ j.offset := by
    intro b hb
    obtain ⟨hb, -, -, -, hle⟩ :=
      inLoop_of_jump_of_reaches hl hfits hbreak hlength hj hop hself (.single hb)
    exact ⟨hb, hle⟩
  obtain ⟨-, hle⟩ := starts_le_of_reaches hl (Block.breaksLand_closed hfits hbreak) hlength
    (fun i hi => Block.kinds_of_mem_closed hi) hentries hfront hop hstep hreach
  have horder := pairwise_offset_lt_layout 0 (Instruction.closed (Block.instructionsOf blocks))
  rw [← hl, hentries, List.pairwise_append] at horder
  have hlt := (List.pairwise_cons.mp horder.2.1).1 e he
  omega

end Program

end Listing

variable {maxVariables : Nat} {source : Bytes} {p : Program}

/-- Control in the listing of a source that is compiled with checked jumps, if no string
holds a zero. A jump closes a loop that starts at the jump's target. No run of control
leaves the loop: its breaks go to its jump, and only an exit ends a run. Each break is in a
loop, and no run from the start of the code gets behind the first loop. A listing's offsets
are 64-bit words and its targets are signed, so this is about code whose size is below the
sign bit, as that of all code in memory is. -/
theorem control_stays_in_loops_of_compile
    (h : compile ⟨maxVariables, .checked⟩ source = .ok p)
    (hdelimited : ∀ i ∈ emitted ⟨maxVariables, .checked⟩ source, ∀ o ∈ i.operands, o.Delimited)
    (hlength : p.code.size < 2 ^ 63) :
    ∃ l, decode p.code.toList = .ok l ∧
      l.entries.map Entry.toInstruction = emitted ⟨maxVariables, .checked⟩ source ∧
      (∀ j ∈ l.entries, j.opcode = .jump →
        (∃ start, j.target? = some start ∧ l.InLoop j start) ∧
        (∀ a b, l.InLoop j a → l.Reaches a b → l.InLoop j b) ∧
        ∀ e ∈ l.entries, l.InLoop j e.offset →
          (e.opcode = .jumpIfLast → e.target? = some (j.offset : Int)) ∧
          (e.successors = [] → e.opcode = .exit)) ∧
      (∀ e ∈ l.entries, e.opcode = .jumpIfLast →
        ∃ j ∈ l.entries, j.opcode = .jump ∧ l.InLoop j e.offset) ∧
      ∀ before j after, l.entries = before ++ j :: after → j.opcode = .jump →
        (∀ e ∈ before, e.opcode ≠ .jump) → ∀ e ∈ after, ¬l.Reaches 0 e.offset := by
  obtain ⟨-, hchecked, -⟩ := compile_eq_ok_iff_read.mp h
  have hfits := hchecked rfl
  have hbreak : ∀ value, .statement (.breakIfLast value) ∉
      (Script.read maxVariables source).blocks :=
    fun value => Script.ne_breakIfLast_of_mem_blocks
  rw [← CodeBuffer.length_toList, toList_code_of_compile h] at hlength
  obtain ⟨hdecode, hentries⟩ := (decode_code_eq_ok_iff h).mpr ⟨hdelimited, rfl⟩
  refine ⟨_, hdecode, hentries, ?_, ?_, ?_⟩
  · intro j hj hop
    refine ⟨exists_inLoop_target rfl hfits hbreak hlength hj hop, ?_, ?_⟩
    · intro a b ha hab
      exact inLoop_of_jump_of_reaches rfl hfits hbreak hlength hj hop ha hab
    · intro e he hin
      exact break_and_end_of_inLoop rfl hfits hbreak hlength hj hop he hin
  · intro e he hop
    exact exists_inLoop_of_break rfl hfits hbreak hlength he hop
  · intro before j after hsplit hop hbefore e he
    exact not_reaches_of_first_jump rfl hfits hbreak hlength hsplit hop hbefore he

theorem control_stays_in_loops_of_break_and_clear :
    ∃ p l, compile ⟨512, .checked⟩ (Bytes.ofString
        "loop \x7b breakiflast 5; print \"A\"; \x7d clear;") = .ok p ∧
      decode p.code.toList = .ok l ∧
      (∃ j ∈ l.entries, j.opcode = .jump ∧ l.InLoop j 0 ∧ ∀ a, l.Reaches 0 a → l.InLoop j a) ∧
      (∃ e ∈ l.entries, e.opcode = .clear ∧ ¬l.Reaches 0 e.offset) := by
  have h : compile ⟨512, .checked⟩ (Bytes.ofString
      "loop \x7b breakiflast 5; print \"A\"; \x7d clear;") =
        .ok (.ofBlocks [.loop [.breakIfLast 5, .print [65]], .statement .clear] 0) := by
    decide +kernel
  obtain ⟨l, hdecode, hentries, hloops, -, hbehind⟩ :=
    control_stays_in_loops_of_compile h (by decide +kernel) (by decide +kernel)
  obtain ⟨-, rfl⟩ := (decode_code_eq_ok_iff h).mp ⟨hdecode, hentries⟩
  refine ⟨_, _, h, hdecode, ?_, ?_⟩
  · obtain ⟨⟨start, hstart, hin⟩, hruns, -⟩ := hloops (.place 7 ⟨.jump, [.relative (-10)]⟩)
      (by decide +kernel) rfl
    obtain rfl : start = 0 := Option.some.inj (hstart.symm.trans (by decide +kernel))
    exact ⟨_, by decide +kernel, rfl, hin, fun a => hruns 0 a hin⟩
  · exact ⟨.place 10 ⟨.clear, []⟩, by decide +kernel, rfl,
      hbehind [.place 0 ⟨.jumpIfLast, [.byte 5, .relative 3]⟩, .place 4 ⟨.print, [.string [65]]⟩]
        (.place 7 ⟨.jump, [.relative (-10)]⟩) [.place 10 ⟨.clear, []⟩, .place 11 ⟨.exit, []⟩]
        (by decide +kernel) rfl (by decide) _ (by decide)⟩

end ConsoleScript
