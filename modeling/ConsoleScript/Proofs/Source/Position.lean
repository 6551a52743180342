import ConsoleScript.Source.Location
import Mathlib.Data.List.DropRight

/-!
# Positions

Lines are counted by the line breaks in front of a place, and columns by the bytes behind
the last of them. So text in front of a line break moves what stands behind it down and
leaves it where it is in its line.
-/

namespace ConsoleScript

namespace Position

/-- The position so many lines further down. -/
def below (lines : Nat) (p : Position) : Position := { p with line := p.line + lines }

variable {lines : Nat} {p : Position} {b : UInt8}

theorem advance_below : (p.below lines).advance b = (p.advance b).below lines := by
  unfold advance
  split
  · rw [below, below, Nat.add_right_comm]
  · rfl

/-- What is counted behind a position does not depend on its line. -/
theorem foldl_advance_below (s : Bytes) :
    s.foldl advance (p.below lines) = (s.foldl advance p).below lines := by
  induction s generalizing p with
  | nil => rfl
  | cons b s ih => rw [List.foldl_cons, advance_below, ih, List.foldl_cons]

theorem line_advance :
    (p.advance b).line = p.line + if b = ascii '\n' then 1 else 0 := by
  unfold advance
  split
  · rfl
  · rfl

theorem line_foldl_advance (s : Bytes) :
    (s.foldl advance p).line = p.line + s.count (ascii '\n') := by
  induction s generalizing p with
  | nil => rfl
  | cons b s ih =>
      simp only [List.foldl_cons, ih, line_advance, List.count_cons, beq_iff_eq]
      omega

theorem line_behind (s : Bytes) : (behind s).line = 1 + s.count (ascii '\n') :=
  line_foldl_advance s

/-- The position behind a text: one line for each line break, and one column for each byte
behind the last of them. -/
theorem behind_eq (s : Bytes) :
    behind s = ⟨1 + s.count (ascii '\n'), 1 + (s.rtakeWhile (· != ascii '\n')).length⟩ := by
  have hcolumn : (behind s).column = 1 + (s.rtakeWhile (· != ascii '\n')).length := by
    induction s using List.reverseRecOn with
    | nil => rfl
    | append_singleton s b ih =>
        rw [behind_concat, advance]
        split
        case isTrue hb =>
          rw [List.rtakeWhile_concat_neg _ _ _ (by simp [hb])]
          rfl
        case isFalse hb =>
          rw [List.rtakeWhile_concat_pos _ _ _ (by simpa using hb), List.length_append, ih]
          rfl
  rw [← line_behind, ← hcolumn]

/-- Behind a text and a line break, positions are counted from the start of a line. -/
theorem behind_append_newline (s t : Bytes) :
    behind (s ++ ascii '\n' :: t) = (behind t).below (1 + s.count (ascii '\n')) := by
  have hline : (behind s).advance (ascii '\n') =
      below (1 + s.count (ascii '\n')) ⟨1, 1⟩ := by
    rw [advance, if_pos rfl, line_behind, below, Nat.add_comm]
  calc
    behind (s ++ ascii '\n' :: t) = t.foldl advance ((behind s).advance (ascii '\n')) := by
      rw [behind, List.foldl_append, List.foldl_cons]
      rfl
    _ = (t.foldl advance ⟨1, 1⟩).below (1 + s.count (ascii '\n')) := by
      rw [hline, foldl_advance_below]
    _ = (behind t).below (1 + s.count (ascii '\n')) := rfl

end Position

namespace Location

/-- A place of a source that stands behind another one keeps its column and its excerpt. -/
theorem within_append_newline {source rest : Bytes} (h : rest <:+ source) (front : Bytes) :
    within (front ++ ascii '\n' :: source) rest =
      { within source rest with
        line := (within source rest).line + (1 + front.count (ascii '\n')) } := by
  obtain ⟨before, rfl⟩ := h
  have hsplit : front ++ ascii '\n' :: (before ++ rest) =
      (front ++ ascii '\n' :: before) ++ rest := by simp
  rw [hsplit, within_append, within_append, Position.behind_append_newline]
  rfl

end Location

end ConsoleScript
