import ConsoleScript.Proofs.Grammar.Origin

/-!
# Checked jumps

Checking jumps changes a compilation only if a loop is too long. Then the first such loop
is what the source is refused for, whatever else is wrong behind it.
-/

namespace ConsoleScript

namespace LoopBody

/-- The distance that a loop is refused for has no 16-bit form exactly if the body is too long. -/
theorem fitsInt16_excess_iff (b : LoopBody) : FitsInt16 b.excess ↔ b.code.size ≤ maxSize := by
  rw [FitsInt16, maxSize, excess]
  split
  · omega
  · dsimp only
    split <;> omega

example (c : CodeBuffer) (h : c.size = 32765) : excess ⟨c, #[2]⟩ = -0x8000 := by
  rw [excess, h]
  rfl

example (c : CodeBuffer) (h : c.size = 32766) : excess ⟨c, #[2]⟩ = -0x8001 := by
  rw [excess, h]
  rfl

end LoopBody

/-- An unchecked compilation emits all that is read, up to the end of the source or its first
fault. So its loops are those of the script. -/
theorem Program.assemble_wrapping (script : Script) :
    assemble .wrapping script = .ok (ofItems script.items) :=
  assemble_of_fits nofun

namespace Script

variable {script : Script} {place : Bytes} {body : List Statement}

theorem mem_items_of_oversized? (h : script.oversized? = some (place, body)) :
    .loop place body ∈ script.items := by
  obtain ⟨i, hi, hfound⟩ := List.exists_of_findSome?_eq_some h
  cases i with
  | loop place' body' =>
      rw [Item.oversized?] at hfound
      split at hfound
      · cases hfound
        exact hi
      · cases hfound
  | _ => cases hfound

end Script

/-- Without a loop that is too long, checking jumps changes nothing. -/
theorem compile_checked_of_oversized?_eq_none {maxVariables : Nat} {source : Bytes}
    (h : (Script.read maxVariables source).oversized? = none) :
    compile ⟨maxVariables, .checked⟩ source = compile ⟨maxVariables, .wrapping⟩ source := by
  rw [compile, compile, Program.ofScript_of_fits fun _ => h,
    Program.ofScript_of_fits fun _ => h]

/-- A checked compilation gives the result of the unchecked one, with the same error at
the same location if there is one, unless a loop that is read has a body of more than
`LoopBody.maxSize` bytes. Then it fails at the keyword of the first such loop, for the
distance of the body's first break if that is too long, and of the jump back otherwise.
By `Program.assemble_wrapping` the loops that are read are those that the unchecked
compilation emits. -/
theorem compile_checked_eq (maxVariables : Nat) (source : Bytes) :
    match (Script.read maxVariables source).oversized? with
    | some (place, body) =>
        compile ⟨maxVariables, .checked⟩ source =
            .error (.jumpOutOfRange (LoopBody.ofStatements body).excess (.within source place)) ∧
          place <:+ source ∧ IsLoopAt place body
    | none =>
        compile ⟨maxVariables, .checked⟩ source =
          compile ⟨maxVariables, .wrapping⟩ source := by
  split
  case h_1 place body h =>
    refine ⟨?_, Script.isLoopAt_of_mem_items (Script.mem_items_of_oversized? h)⟩
    rw [compile, Program.ofScript_checked_of_oversized h]
    rfl
  case h_2 h => exact compile_checked_of_oversized?_eq_none h

end ConsoleScript
