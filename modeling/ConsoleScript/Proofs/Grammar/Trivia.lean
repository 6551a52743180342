import ConsoleScript.Proofs.Text.Splitting
import ConsoleScript.Source.Reader

/-!
# Trivia of the grammar

Between the tokens of a source stand blanks and comments. This is the text that
readers skip, described without them.
-/

namespace ConsoleScript.Grammar

open Bytes

/-- Blanks and comments that may stand in front of a token. -/
inductive Trivia : Bytes → Prop
  | nil : Trivia []
  | blank {b s} (hb : isBlank b = true) (hs : Trivia s) : Trivia (b :: s)
  | comment {text s} (htext : ascii '\n' ∉ text) (hs : Trivia s) :
      Trivia (ascii '/' :: ascii '/' :: (text ++ ascii '\n' :: s))

/-- What may stand behind the last token of a source. -/
inductive Ending : Bytes → Prop
  | trivia {s} (hs : Trivia s) : Ending s
  | comment {s text} (hs : Trivia s) (htext : ascii '\n' ∉ text) :
      Ending (s ++ ascii '/' :: ascii '/' :: text)

/-- A text whose first byte is neither a blank nor the start of a comment. -/
def Significant : Bytes → Prop
  | [] => False
  | b :: s => isBlank b = false ∧ ¬(b = ascii '/' ∧ s.head? = some (ascii '/'))

variable {b : UInt8} {s t w text rest : Bytes}

/-! ### Lines -/

/-- A line ends in front of the first line break or at the end of the text. -/
theorem skipLine_eq_iff :
    skipLine s = rest ↔
      ∃ line, s = line ++ rest ∧ ascii '\n' ∉ line ∧ ∀ b ∈ rest.head?, b = ascii '\n' := by
  have hline : ∀ line : Bytes, (∀ b ∈ line, (b != ascii '\n') = true) ↔ ascii '\n' ∉ line := by
    intro line
    simp only [bne_iff_ne]
    exact ⟨fun h hmem => h _ hmem rfl, fun h b hb heq => h (heq ▸ hb)⟩
  constructor
  · intro h
    obtain ⟨hs, hrun, hstop⟩ := Text.span_eq_iff.mp ⟨rfl, h⟩
    exact ⟨_, hs, (hline _).mp hrun, fun b hb => by simpa using hstop b hb⟩
  · rintro ⟨line, hs, hrun, hstop⟩
    exact (Text.span_eq_iff.mpr
      ⟨hs, (hline _).mpr hrun, fun b hb => by simpa using hstop b hb⟩).2

/-! ### Trivia -/

theorem skipTrivia_blank (hb : isBlank b = true) : skipTrivia (b :: s) = skipTrivia s := by
  rw [skipTrivia, if_pos hb]

theorem skipTrivia_of_significant (h : Significant s) : skipTrivia s = s := by
  cases s with
  | nil => exact h.elim
  | cons b s => rw [skipTrivia, if_neg (by simp [h.1]), if_neg h.2]

/-- A comment is skipped together with the line break that ends it. -/
theorem skipTrivia_comment (htext : ascii '\n' ∉ text) :
    skipTrivia (ascii '/' :: ascii '/' :: (text ++ ascii '\n' :: s)) = skipTrivia s := by
  have hline : skipLine (ascii '/' :: (text ++ ascii '\n' :: s)) = ascii '\n' :: s := by
    refine skipLine_eq_iff.mpr ⟨ascii '/' :: text, rfl, ?_, fun b hb => ?_⟩
    · rw [List.mem_cons, not_or]
      exact ⟨by decide, htext⟩
    · exact (Option.some.inj hb).symm
  rw [skipTrivia, if_neg (by decide), if_pos ⟨rfl, rfl⟩, hline, skipTrivia_blank (by decide)]

@[simp] theorem skipTrivia_nil : skipTrivia [] = [] := by
  rw [skipTrivia]

/-- A comment without a line break behind it ends the source. -/
theorem skipTrivia_lastComment (htext : ascii '\n' ∉ text) :
    skipTrivia (ascii '/' :: ascii '/' :: text) = [] := by
  have hline : skipLine (ascii '/' :: text) = [] := by
    refine skipLine_eq_iff.mpr ⟨_, (List.append_nil _).symm, ?_, by simp⟩
    rw [List.mem_cons, not_or]
    exact ⟨by decide, htext⟩
  rw [skipTrivia, if_neg (by decide), if_pos ⟨rfl, rfl⟩, hline, skipTrivia_nil]

theorem Trivia.append (hw : Trivia w) (hs : Trivia s) : Trivia (w ++ s) := by
  induction hw with
  | nil => exact hs
  | blank hb _ ih => exact .blank hb ih
  | comment htext _ ih =>
      rw [List.cons_append, List.cons_append, List.append_assoc, List.cons_append]
      exact .comment htext ih

theorem Ending.append (hw : Trivia w) (hs : Ending s) : Ending (w ++ s) := by
  cases hs with
  | trivia hs => exact .trivia (hw.append hs)
  | comment hs htext =>
      rw [← List.append_assoc]
      exact .comment (hw.append hs) htext

theorem skipTrivia_append (hw : Trivia w) : skipTrivia (w ++ s) = skipTrivia s := by
  induction hw with
  | nil => rfl
  | blank hb _ ih => rw [List.cons_append, skipTrivia_blank hb, ih]
  | comment htext _ ih =>
      rw [List.cons_append, List.cons_append, List.append_assoc, List.cons_append,
        skipTrivia_comment htext, ih]

/-- No name goes on with a blank. -/
theorem isNameByte_of_isBlank (hb : isBlank b = true) : isNameByte b = false := by
  simp only [isBlank, Bool.or_eq_true, beq_iff_eq] at hb
  obtain ((rfl | rfl) | rfl) | rfl := hb
  all_goals decide

/-- No name goes on with trivia. -/
theorem Trivia.isNameByte_head? (hw : Trivia w) (hs : ∀ b ∈ s.head?, isNameByte b = false) :
    ∀ b ∈ (w ++ s).head?, isNameByte b = false := by
  intro b hb
  cases hw with
  | nil => exact hs b hb
  | blank hblank _ =>
      cases hb
      exact isNameByte_of_isBlank hblank
  | comment _ _ =>
      cases hb
      decide

/-- A text that starts with a comment is all comment, or the comment's line ends. -/
theorem exists_comment (hslash : s.head? = some (ascii '/')) :
    ∃ text, ascii '\n' ∉ text ∧
      (s = ascii '/' :: text ∨ ∃ rest, s = ascii '/' :: (text ++ ascii '\n' :: rest)) := by
  obtain ⟨line, hs, hline, hstop⟩ := skipLine_eq_iff.mp (rfl : skipLine s = skipLine s)
  obtain ⟨text, rfl⟩ : ∃ text, line = ascii '/' :: text := by
    cases line with
    | nil =>
        rw [hs, List.nil_append] at hslash
        exact absurd (hstop _ hslash) (by decide)
    | cons c text =>
        rw [hs, List.cons_append] at hslash
        cases hslash
        exact ⟨text, rfl⟩
  refine ⟨text, fun h => hline (List.mem_cons_of_mem _ h), ?_⟩
  cases hrest : skipLine s with
  | nil =>
      rw [hrest, List.append_nil] at hs
      exact .inl hs
  | cons c rest =>
      rw [hrest] at hs hstop
      obtain rfl : c = ascii '\n' := hstop c rfl
      exact .inr ⟨rest, hs⟩

/-- What a text starts with. -/
theorem leading_cases (s : Bytes) :
    Significant s ∨ (∃ w rest, Trivia w ∧ rest.length < s.length ∧ s = w ++ rest) ∨
      s = [] ∨ ∃ text, ascii '\n' ∉ text ∧ s = ascii '/' :: ascii '/' :: text := by
  cases s with
  | nil => exact .inr (.inr (.inl rfl))
  | cons b s =>
      by_cases hb : isBlank b = true
      · exact .inr (.inl ⟨[b], s, .blank hb .nil, Nat.lt_succ_self _, rfl⟩)
      by_cases hslash : b = ascii '/' ∧ s.head? = some (ascii '/')
      · obtain ⟨rfl, hslash⟩ := hslash
        obtain ⟨text, htext, rfl | ⟨rest, rfl⟩⟩ := exists_comment hslash
        · exact .inr (.inr (.inr ⟨text, htext, rfl⟩))
        · refine .inr (.inl ⟨_, rest, .comment htext .nil, ?_, ?_⟩)
          · simp
            omega
          · simp
      · exact .inl ⟨by simpa using hb, hslash⟩

/-- What is skipped in front of a significant text is trivia; if nothing is left,
the text may end a source. -/
theorem exists_trivia_append (s : Bytes) :
    (Significant (skipTrivia s) ∧ ∃ w, Trivia w ∧ s = w ++ skipTrivia s) ∨
      (skipTrivia s = [] ∧ Ending s) := by
  induction hlength : s.length using Nat.strongRecOn generalizing s with
  | ind n ih =>
      rcases leading_cases s with hsig | ⟨w, rest, hw, hlt, rfl⟩ | rfl | ⟨text, htext, rfl⟩
      · rw [skipTrivia_of_significant hsig]
        exact .inl ⟨hsig, [], .nil, rfl⟩
      · rw [skipTrivia_append hw]
        rcases ih _ (hlength ▸ hlt) rest rfl with ⟨hsig, w', hw', hrest⟩ | ⟨hskip, hend⟩
        · refine .inl ⟨hsig, w ++ w', hw.append hw', ?_⟩
          rw [List.append_assoc, ← hrest]
        · exact .inr ⟨hskip, hend.append hw⟩
      · exact .inr ⟨skipTrivia_nil, .trivia .nil⟩
      · exact .inr ⟨skipTrivia_lastComment htext, .comment .nil htext⟩

/-- Nothing is left exactly when the text may end a source. -/
theorem skipTrivia_eq_nil_iff : skipTrivia s = [] ↔ Ending s := by
  constructor
  · intro h
    rcases exists_trivia_append s with ⟨hsig, -⟩ | ⟨-, hend⟩
    · rw [h] at hsig
      exact hsig.elim
    · exact hend
  · intro h
    cases h with
    | trivia hs => rw [← List.append_nil s, skipTrivia_append hs, skipTrivia_nil]
    | comment hs htext => rw [skipTrivia_append hs, skipTrivia_lastComment htext]

/-- A significant text is left exactly when trivia stands in front of it. -/
theorem skipTrivia_eq_iff (ht : Significant t) :
    skipTrivia s = t ↔ ∃ w, Trivia w ∧ s = w ++ t := by
  constructor
  · rintro rfl
    rcases exists_trivia_append s with ⟨-, hsplit⟩ | ⟨hskip, -⟩
    · exact hsplit
    · rw [hskip] at ht
      exact ht.elim
  · rintro ⟨w, hw, rfl⟩
    rw [skipTrivia_append hw, skipTrivia_of_significant ht]

@[simp] theorem skipTrivia_skipTrivia (s : Bytes) : skipTrivia (skipTrivia s) = skipTrivia s := by
  rcases exists_trivia_append s with ⟨hsig, -⟩ | ⟨hskip, -⟩
  · exact skipTrivia_of_significant hsig
  · rw [hskip, skipTrivia_nil]

end ConsoleScript.Grammar
