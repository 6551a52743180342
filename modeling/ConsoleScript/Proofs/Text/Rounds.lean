import ConsoleScript.Bytes.Basic

/-!
# Loops over a text

A loop over a text goes round by round. A round leaves the loop with a result, or goes on with
another state and with what is left of the text. A loop in which every round that goes on takes
text away ends, and the number of its rounds is bounded by the length of the text.

## Implementation notes

The condition of a loop, if it has one, is not counted as a round. So a loop whose condition fails
at the end of the text has at most one round for each byte, and any other loop has at most one
round more.
-/

namespace ConsoleScript

/-- What a loop does next. -/
inductive Round (σ α : Type) where
  /-- The condition of the loop fails, and there is no round. -/
  | none (result : α)
  /-- The round leaves the loop. -/
  | leave (result : α)
  /-- The round goes on behind the text that it has taken away. -/
  | next (state : σ) (rest : Bytes)
deriving DecidableEq, Repr

/-- The result if the function gives the result of what a round goes on with. -/
def Round.value {σ α : Type} (f : σ → Bytes → α) : Round σ α → α
  | none a => a
  | leave a => a
  | next st s => f st s

/-- What a loop does next, by its state and by what is left of the text. -/
abbrev TextLoop (σ α : Type) := σ → Bytes → Round σ α

namespace TextLoop

variable {σ α : Type} {loop : TextLoop σ α} {f : σ → Bytes → α}

/-- From the state and the text on, the loop ends after so many rounds with the result. -/
inductive Ends (loop : TextLoop σ α) : σ → Bytes → Nat → α → Prop
  | none {st : σ} {s : Bytes} {a : α} (h : loop st s = .none a) : Ends loop st s 0 a
  | leave {st : σ} {s : Bytes} {a : α} (h : loop st s = .leave a) : Ends loop st s 1 a
  | next {st st' : σ} {s t : Bytes} {n : Nat} {a : α} (h : loop st s = .next st' t)
      (rounds : Ends loop st' t n a) : Ends loop st s (n + 1) a

/-- From the state and the text on, the loop ends after at most so many rounds with the result. -/
def EndsWithin (loop : TextLoop σ α) (bound : Nat) (st : σ) (s : Bytes) (a : α) : Prop :=
  ∃ n ≤ bound, loop.Ends st s n a

/-- Every round that does not leave the loop takes text away. -/
def Advances (loop : TextLoop σ α) : Prop :=
  ∀ st s st' t, loop st s = .next st' t → t <:+ s ∧ t.length < s.length

/-- The loop advances, and a round does not change what the function gives. -/
structure Computes (loop : TextLoop σ α) (f : σ → Bytes → α) : Prop where
  advances : loop.Advances
  value_eq : ∀ st s, (loop st s).value f = f st s

namespace Computes

/-- A loop that advances ends with what it computes. It has no more rounds than the text has
bytes, but for a round at the end of the text, if there may be one. -/
theorem exists_ends (h : loop.Computes f) (slack : Nat)
    (hend : ∀ st a, loop st [] = .leave a → 0 < slack) (st : σ) (s : Bytes) :
    loop.EndsWithin (s.length + slack) st s (f st s) := by
  induction hlength : s.length using Nat.strongRecOn generalizing st s with
  | ind length ih =>
      rw [← h.value_eq st s]
      cases hround : loop st s with
      | none a => exact ⟨0, Nat.zero_le _, .none hround⟩
      | leave a =>
          refine ⟨1, ?_, .leave hround⟩
          cases s with
          | nil => exact Nat.le_add_left_of_le (hend st a hround)
          | cons b s =>
              rw [← hlength, List.length_cons]
              omega
      | next st' t =>
          obtain ⟨-, hlt⟩ := h.advances st s st' t hround
          obtain ⟨n, hn, hends⟩ := ih t.length (hlength ▸ hlt) st' t rfl
          exact ⟨n + 1, by omega, .next hround hends⟩

theorem endsWithin_succ (h : loop.Computes f) (st : σ) (s : Bytes) :
    loop.EndsWithin (s.length + 1) st s (f st s) :=
  h.exists_ends 1 (fun _ _ _ => Nat.one_pos) st s

/-- A loop whose condition fails at the end of the text. -/
theorem endsWithin_length (h : loop.Computes f) (hend : ∀ st, ∃ a, loop st [] = .none a)
    (st : σ) (s : Bytes) : loop.EndsWithin s.length st s (f st s) := by
  apply h.exists_ends 0
  intro st a hleave
  obtain ⟨a', hnone⟩ := hend st
  rw [hnone] at hleave
  cases hleave

end Computes

end TextLoop

end ConsoleScript
