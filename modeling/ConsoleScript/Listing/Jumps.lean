import ConsoleScript.Listing.Basic

/-!
# Jump targets of a listing

A jump may go to the start of an instruction or to the end of the code section.
Any other target is a fault.

## Implementation notes

Targets are signed words, so the end of the section is read as one too. A section
of `2 ^ 63` bytes or more ends at a negative address, and every target is outside
of it.
-/

namespace ConsoleScript

/-- Why a jump has no valid target. -/
inductive JumpFault where
  /-- The target lies before the start or behind the end of the code section. -/
  | outOfBounds (offset : Nat) (target : Int)
  /-- The target lies in the code section where no instruction starts. -/
  | misaligned (offset : Nat) (target : Nat)
deriving DecidableEq, Repr

/-- The text of a jump fault. -/
def JumpFault.message : JumpFault → String
  | outOfBounds offset target =>
    s!"Jump at offset {offset} targets {target}, outside the code section"
  | misaligned offset target =>
    s!"Jump at offset {offset} targets {target}, which is not an instruction boundary"

namespace Listing

/-- The end of the code section as a target. -/
def lastTarget (l : Listing) : Int := Address.signed l.codeLength

theorem lastTarget_of_lt {l : Listing} (h : l.codeLength < 0x8000000000000000) :
    l.lastTarget = l.codeLength :=
  Address.signed_of_le_of_lt (by omega) (by omega)

/-- An instruction starts at the offset, or the code section ends there. -/
def IsBoundary (l : Listing) (offset : Nat) : Prop :=
  offset = l.codeLength ∨ offset ∈ l.addressMap

instance (l : Listing) (offset : Nat) : Decidable (l.IsBoundary offset) :=
  inferInstanceAs (Decidable (_ ∨ _))

/-- What is wrong with the target of an entry. -/
def faultOf? (l : Listing) (e : Entry) : Option JumpFault :=
  e.target?.bind fun target =>
    if target < 0 ∨ l.lastTarget < target then some (.outOfBounds e.offset target)
    else if l.IsBoundary target.toNat then none
    else some (.misaligned e.offset target.toNat)

/-- The fault of the first entry whose target is invalid. -/
def jumpFault? (l : Listing) : Option JumpFault :=
  l.entries.findSome? l.faultOf?

theorem jumpFault?_eq_none_iff {l : Listing} :
    l.jumpFault? = none ↔ ∀ e ∈ l.entries, l.faultOf? e = none := by
  simp [jumpFault?]

theorem faultOf?_eq_none_iff {l : Listing} {e : Listing.Entry} :
    l.faultOf? e = none ↔
      ∀ target, e.target? = some target → 0 ≤ target ∧ l.IsBoundary target.toNat ∧
        target ≤ l.lastTarget := by
  unfold faultOf?
  cases h : e.target? with
  | none => simp
  | some target =>
      simp only [Option.bind_some, Option.some.injEq, forall_eq']
      split
      · simp only [reduceCtorEq, false_iff]
        omega
      · split
        · simp only [true_iff]
          exact ⟨by omega, by assumption, by omega⟩
        · simp only [reduceCtorEq, false_iff]
          exact fun h => absurd h.2.1 (by assumption)

end Listing

end ConsoleScript
