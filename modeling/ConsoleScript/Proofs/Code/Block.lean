import ConsoleScript.Outcome
import ConsoleScript.Program
import ConsoleScript.Proofs.Code.Loop

/-!
# The program of a script

A script's program depends on its blocks: the statements and loops that it adds
to the code. Remarks and declarations leave no code behind, and places matter
only in errors.
-/

namespace ConsoleScript

open Instruction Statement

/-- What an item adds to the code. -/
inductive Block where
  | statement (s : Statement)
  | loop (body : List Statement)
deriving DecidableEq, Repr

namespace Block

/-- The instructions of a block. -/
def instructions : Block → List Instruction
  | statement s => [s.instruction]
  | loop body => Statement.loop body

/-- The statements of a block. -/
def statements : Block → List Statement
  | statement s => [s]
  | loop body => body

/-- All distances of the block have a 16-bit form. -/
def Fits : Block → Prop
  | statement _ => True
  | loop body => codeSize body ≤ LoopBody.maxSize

instance : (b : Block) → Decidable b.Fits
  | statement _ => isTrue trivial
  | loop body => inferInstanceAs (Decidable (codeSize body ≤ LoopBody.maxSize))

/-- The instructions of blocks that stand one behind the other. -/
def instructionsOf (blocks : List Block) : List Instruction := blocks.flatMap instructions

/-- The facilities that blocks use. -/
def flagsOf (blocks : List Block) : Flags :=
  (blocks.flatMap statements).foldl (fun flags s => flags ∪ s.requiredFlags) ∅

theorem instructionsOf_cons (b : Block) (blocks : List Block) :
    instructionsOf (b :: blocks) = b.instructions ++ instructionsOf blocks :=
  List.flatMap_cons

theorem instructionsOf_append (front back : List Block) :
    instructionsOf (front ++ back) = instructionsOf front ++ instructionsOf back :=
  List.flatMap_append

theorem flagsOf_append (front back : List Block) :
    flagsOf (front ++ back) =
      (back.flatMap statements).foldl (fun flags s => flags ∪ s.requiredFlags) (flagsOf front) := by
  rw [flagsOf, List.flatMap_append, List.foldl_append]
  rfl

theorem foldl_requiredFlags_union (statements : List Statement) (f g : Flags) :
    statements.foldl (fun flags s => flags ∪ s.requiredFlags) (f ∪ g) =
      f ∪ statements.foldl (fun flags s => flags ∪ s.requiredFlags) g := by
  induction statements generalizing g with
  | nil => rfl
  | cons s statements ih => rw [List.foldl_cons, Flags.union_assoc, ih, List.foldl_cons]

/-- Blocks together use the facilities that they use apart. -/
theorem flagsOf_append_eq_union (front back : List Block) :
    flagsOf (front ++ back) = flagsOf front ∪ flagsOf back := by
  rw [flagsOf_append, ← Flags.union_empty (flagsOf front), foldl_requiredFlags_union,
    Flags.union_empty]
  rfl

end Block

namespace Item

/-- The blocks that an item adds. -/
def blocks : Item → List Block
  | remark | declaration _ => []
  | statement s => [.statement s]
  | loop _ body => [.loop body]

/-- The variables that an item declares. -/
def declarations : Item → List Variable
  | declaration v => [v]
  | _ => []

/-- The place and the body of a loop that is too long for 16-bit jumps. -/
def oversized? : Item → Option (Bytes × List Statement)
  | loop place body => if LoopBody.maxSize < codeSize body then some (place, body) else none
  | _ => none

theorem oversized?_eq_none_iff {i : Item} : i.oversized? = none ↔ ∀ b ∈ i.blocks, b.Fits := by
  cases i with
  | loop place body => simp [oversized?, blocks, Block.Fits]
  | _ => simp [oversized?, blocks, Block.Fits]

end Item

namespace Script

/-- The blocks of a script in the order of the code. -/
def blocks (script : Script) : List Block := script.items.flatMap Item.blocks

/-- The instructions that a script becomes, in the order of the code. -/
def instructions (script : Script) : List Instruction :=
  Instruction.closed (Block.instructionsOf script.blocks)

/-- The declarations of a script, repeated names included. -/
def declarations (script : Script) : List Variable := script.items.flatMap Item.declarations

/-- The first loop of a script that is too long for 16-bit jumps. -/
def oversized? (script : Script) : Option (Bytes × List Statement) :=
  script.items.findSome? Item.oversized?

theorem oversized?_eq_none_iff {script : Script} :
    script.oversized? = none ↔ ∀ b ∈ script.blocks, b.Fits := by
  simp only [oversized?, List.findSome?_eq_none_iff, Item.oversized?_eq_none_iff, blocks,
    List.mem_flatMap]
  constructor
  · rintro h b ⟨i, hi, hb⟩
    exact h i hi b hb
  · intro h i hi b hb
    exact h b ⟨i, hi, hb⟩

end Script

namespace Program

/-- The program of items in front of its exit. -/
def ofItems (items : List Item) : Program where
  code := .ofInstructions (Block.instructionsOf (items.flatMap Item.blocks))
  flags := Block.flagsOf (items.flatMap Item.blocks)
  declared := (items.flatMap Item.declarations).length

/-- The program with these blocks and so many declarations. -/
def ofBlocks (blocks : List Block) (declared : Nat) : Program where
  code := .ofInstructions (Instruction.closed (Block.instructionsOf blocks))
  flags := Block.flagsOf blocks
  declared := declared

variable {range : JumpRange} {front items : List Item} {item : Item} {script : Script}
  {place : Bytes} {body : List Statement} {e : Fault}

theorem closed_ofItems : (ofItems items).closed =
    ofBlocks (items.flatMap Item.blocks) (items.flatMap Item.declarations).length := by
  rw [closed, ofItems, ofBlocks, CodeBuffer.closed_ofInstructions]

/-- What an item adds to the program of the items in front of it. -/
theorem ofItems_concat :
    ofItems (front ++ [item]) =
      ⟨(ofItems front).code.emitAll (Block.instructionsOf item.blocks),
        (item.blocks.flatMap Block.statements).foldl (fun flags s => flags ∪ s.requiredFlags)
          (ofItems front).flags,
        (ofItems front).declared + item.declarations.length⟩ := by
  have hblocks : (front ++ [item]).flatMap Item.blocks =
      front.flatMap Item.blocks ++ item.blocks := by simp
  have hdeclarations : (front ++ [item]).flatMap Item.declarations =
      front.flatMap Item.declarations ++ item.declarations := by simp
  rw [ofItems, hblocks, hdeclarations, Block.instructionsOf_append, Block.flagsOf_append,
    List.length_append]
  congr 1
  exact CodeBuffer.emitAll_ofInstructions.symm

theorem add_of_fits (h : range = .checked → item.oversized? = none) :
    (ofItems front).add range item = .ok (ofItems (front ++ [item])) := by
  rw [ofItems_concat]
  cases item with
  | remark => rfl
  | declaration v => rfl
  | statement s => rfl
  | loop place body =>
      have hfits : range = .checked → codeSize body ≤ LoopBody.maxSize := by
        intro hrange
        have hnone := h hrange
        rw [Item.oversized?_eq_none_iff] at hnone
        exact hnone (.loop body) List.mem_cons_self
      have hcode : (ofItems front).code.emitLoop range place (.ofStatements body) =
          .ok ((ofItems front).code.emitAll (Statement.loop body)) :=
        CodeBuffer.emitLoop_of_fits hfits
      have hinstructions : Block.instructionsOf (Item.loop place body).blocks =
          Statement.loop body := List.append_nil _
      have hstatements : (Item.loop place body).blocks.flatMap Block.statements = body :=
        List.append_nil _
      rw [hinstructions, hstatements]
      show (do
        let code ← (ofItems front).code.emitLoop range place (.ofStatements body)
        return (⟨code, _, _⟩ : Program)) = _
      rw [hcode]
      rfl

theorem add_checked_of_oversized (h : item.oversized? = some (place, body)) (p : Program) :
    p.add .checked item =
      .error (.jumpOutOfRange (LoopBody.ofStatements body).excess place) := by
  cases item with
  | loop place' body' =>
      by_cases hlong : LoopBody.maxSize < codeSize body'
      · rw [Item.oversized?, if_pos hlong] at h
        cases h
        show (do
          let code ← p.code.emitLoop .checked place (.ofStatements body)
          return (⟨code, _, _⟩ : Program)) = _
        rw [CodeBuffer.emitLoop_checked_of_lt hlong]
        rfl
      · rw [Item.oversized?, if_neg hlong] at h
        cases h
  | _ => cases h

theorem foldlM_add_of_fits (h : range = .checked → items.findSome? Item.oversized? = none) :
    items.foldlM (add range) (ofItems front) = .ok (ofItems (front ++ items)) := by
  induction items generalizing front with
  | nil => rw [List.append_nil]; rfl
  | cons item items ih =>
      have hsplit : range = .checked →
          item.oversized? = none ∧ items.findSome? Item.oversized? = none := by
        intro hrange
        have hnone := h hrange
        rw [List.findSome?_cons] at hnone
        split at hnone
        · cases hnone
        · exact ⟨by assumption, hnone⟩
      rw [List.foldlM_cons, add_of_fits fun hrange => (hsplit hrange).1]
      show items.foldlM (add range) (ofItems (front ++ [item])) = _
      rw [ih fun hrange => (hsplit hrange).2, List.append_assoc]
      rfl

theorem foldlM_add_checked_of_oversized
    (h : items.findSome? Item.oversized? = some (place, body)) :
    items.foldlM (add .checked) (ofItems front) =
      .error (.jumpOutOfRange (LoopBody.ofStatements body).excess place) := by
  induction items generalizing front with
  | nil => cases h
  | cons item items ih =>
      rw [List.findSome?_cons] at h
      rw [List.foldlM_cons]
      cases hitem : item.oversized? with
      | none =>
          rw [hitem] at h
          rw [add_of_fits fun _ => hitem]
          exact ih h
      | some found =>
          rw [hitem] at h
          cases h
          rw [add_checked_of_oversized hitem]
          rfl

theorem assemble_of_fits (h : range = .checked → script.oversized? = none) :
    assemble range script = .ok (ofItems script.items) := by
  have hitems : script.items.foldlM (add range) (ofItems []) =
      .ok (ofItems ([] ++ script.items)) := foldlM_add_of_fits h
  exact hitems

theorem assemble_checked_of_oversized (h : script.oversized? = some (place, body)) :
    assemble .checked script =
      .error (.jumpOutOfRange (LoopBody.ofStatements body).excess place) := by
  have hitems : script.items.foldlM (add .checked) (ofItems []) =
      .error (.jumpOutOfRange (LoopBody.ofStatements body).excess place) :=
    foldlM_add_checked_of_oversized h
  exact hitems

theorem assemble_eq_ok_iff {p : Program} :
    assemble range script = .ok p ↔
      (range = .checked → script.oversized? = none) ∧ p = ofItems script.items := by
  by_cases hfits : range = .checked → script.oversized? = none
  · rw [assemble_of_fits hfits, Except.ok.injEq, eq_comm]
    exact ⟨fun h => ⟨hfits, h⟩, And.right⟩
  · constructor
    · intro h
      obtain ⟨rfl, hsome⟩ := Classical.not_imp.mp hfits
      obtain ⟨⟨place, body⟩, hloop⟩ := Option.ne_none_iff_exists'.mp hsome
      rw [assemble_checked_of_oversized hloop] at h
      cases h
    · rintro ⟨h, -⟩
      exact absurd h hfits

/-- Only a jump can be what a script is refused for when it is assembled. -/
theorem jumpOutOfRange_of_assemble_eq_error (h : assemble range script = .error e) :
    ∃ distance place, e = .jumpOutOfRange distance place := by
  by_cases hfits : range = .checked → script.oversized? = none
  · rw [assemble_of_fits hfits] at h
    cases h
  · obtain ⟨rfl, hsome⟩ := Classical.not_imp.mp hfits
    obtain ⟨⟨place, body⟩, hloop⟩ := Option.ne_none_iff_exists'.mp hsome
    rw [assemble_checked_of_oversized hloop] at h
    cases h
    exact ⟨_, _, rfl⟩

/-- Items that cannot be assembled are what a script is refused for, whatever follows. -/
theorem ofScript_append_of_assemble_eq_error {fault? fault?' : Option Fault}
    (h : assemble range ⟨front, fault?⟩ = .error e) (items : List Item) :
    ofScript range ⟨front ++ items, fault?'⟩ = .error e := by
  have hfront : front.foldlM (add range) {} = .error e := h
  rw [ofScript, assemble, List.foldlM_append, hfront]
  rfl

/-- A script is refused for its items in front of the fault that reading it met. -/
theorem ofScript_eq_error_iff :
    ofScript range script = .error e ↔
      assemble range script = .error e ∨
        (∃ p, assemble range script = .ok p) ∧ script.fault? = some e := by
  rw [ofScript]
  cases assemble range script with
  | error e' => simp [bind, Except.bind]
  | ok p =>
      cases script.fault? with
      | none => simp [bind, Except.bind, pure, Except.pure]
      | some e' => simp [bind, Except.bind, throw, throwThe, MonadExceptOf.throw]

/-- The program of a script whose jumps all fit, or the fault that reading it met. -/
theorem ofScript_of_fits (h : range = .checked → script.oversized? = none) :
    ofScript range script =
      match script.fault? with
      | some e => .error e
      | none => .ok (ofBlocks script.blocks script.declarations.length) := by
  rw [ofScript, assemble_of_fits h]
  cases script.fault? with
  | some e => rfl
  | none =>
      show Except.ok (closed _) = _
      rw [closed_ofItems]
      rfl

/-- A checked script is refused for its first loop that is too long, whatever
follows. -/
theorem ofScript_checked_of_oversized (h : script.oversized? = some (place, body)) :
    ofScript .checked script =
      .error (.jumpOutOfRange (LoopBody.ofStatements body).excess place) := by
  rw [ofScript, assemble_checked_of_oversized h]
  rfl

/-- A script has a program exactly when it is read to its end and, if jumps are
checked, all its loops fit. -/
theorem ofScript_eq_ok_iff {p : Program} :
    ofScript range script = .ok p ↔
      script.fault? = none ∧ (range = .checked → ∀ b ∈ script.blocks, b.Fits) ∧
        p = ofBlocks script.blocks script.declarations.length := by
  by_cases hfits : range = .checked → script.oversized? = none
  · rw [ofScript_of_fits hfits]
    rw [Script.oversized?_eq_none_iff] at hfits
    cases script.fault? with
    | some e => simp
    | none =>
        constructor
        · intro h
          cases h
          exact ⟨rfl, hfits, rfl⟩
        · rintro ⟨-, -, rfl⟩
          rfl
  · obtain ⟨rfl, hsome⟩ := Classical.not_imp.mp hfits
    obtain ⟨⟨place, body⟩, hloop⟩ := Option.ne_none_iff_exists'.mp hsome
    rw [ofScript_checked_of_oversized hloop]
    rw [Script.oversized?_eq_none_iff] at hsome
    simp [hsome]

end Program

/-- What a source compiles to is decided by its script. -/
theorem compile_eq_ok_iff_read {options : CompileOptions} {source : Bytes} {p : Program} :
    compile options source = .ok p ↔
      (Script.read options.maxVariables source).fault? = none ∧
        (options.jumpRange = .checked →
          ∀ b ∈ (Script.read options.maxVariables source).blocks, b.Fits) ∧
        p = .ofBlocks (Script.read options.maxVariables source).blocks
          (Script.read options.maxVariables source).declarations.length := by
  rw [← Program.ofScript_eq_ok_iff, compile, mapError_eq_ok_iff]

end ConsoleScript
