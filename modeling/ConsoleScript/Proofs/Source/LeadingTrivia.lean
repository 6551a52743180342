import ConsoleScript.Proofs.Grammar.Replacement
import ConsoleScript.Proofs.Source.FaultPlace

/-!
# Trivia in front of a token

Each reader of a token starts with what is left behind trivia. So blanks and comments in front
of a text change nothing of what is read from it: neither a result nor a fault, nor what is left
then. Only a location tells that they are there, since lines and columns are counted from the
start of the source.

## Implementation notes

A place inside a comment is not behind trivia, so a text that starts at a lone byte of a comment
is not where skipping could stop. The last comment of a source may go to its end.
-/

namespace ConsoleScript

open Grammar Bytes

namespace Grammar

variable {s rest : Bytes}

/-- The text splits into blanks and whole comments and what is left behind them. -/
def IsBehindTrivia (s rest : Bytes) : Prop :=
  (∃ w, Trivia w ∧ s = w ++ rest) ∨ (Ending s ∧ rest = [])

/-- The text is at its end, or starts with neither a blank nor a comment. -/
def StartsToken (s : Bytes) : Prop := s = [] ∨ Significant s

theorem skipTrivia_of_startsToken (h : StartsToken s) : skipTrivia s = s := by
  rcases h with rfl | hsig
  · exact skipTrivia_nil
  · exact skipTrivia_of_significant hsig

theorem startsToken_skipTrivia (s : Bytes) : StartsToken (skipTrivia s) := by
  rcases exists_trivia_append s with ⟨hsig, -⟩ | ⟨hnil, -⟩
  · exact .inr hsig
  · exact .inl hnil

theorem isBehindTrivia_skipTrivia (s : Bytes) : IsBehindTrivia s (skipTrivia s) := by
  rcases exists_trivia_append s with ⟨-, hsplit⟩ | ⟨hnil, hending⟩
  · exact .inl hsplit
  · exact .inr ⟨hending, hnil⟩

/-- Behind blanks and whole comments there is one place only where a token may start. -/
theorem IsBehindTrivia.eq_skipTrivia (h : IsBehindTrivia s rest) (hstart : StartsToken rest) :
    rest = skipTrivia s := by
  rcases h with ⟨w, hw, rfl⟩ | ⟨hending, rfl⟩
  · rw [skipTrivia_append hw, skipTrivia_of_startsToken hstart]
  · exact (skipTrivia_eq_nil_iff.mpr hending).symm

end Grammar

namespace Reader

variable {α : Type} {r : Reader α}

/-- The readers of single tokens: punctuation, names, literals, and literals or names. -/
inductive TakesToken : {α : Type} → Reader α → Prop
  | eat (b : UInt8) : TakesToken (eat b)
  | expect (b : UInt8) (expectation : String) : TakesToken (expect b expectation)
  | name : TakesToken name
  | string : TakesToken string
  | char : TakesToken char
  | integer : TakesToken integer
  | stringOperand (table : VariableTable) : TakesToken (stringOperand table)
  | intOperand (table : VariableTable) : TakesToken (intOperand table)

namespace TakesToken

theorem forward (hr : TakesToken r) : Forward r := by
  cases hr with
  | eat b => exact forward_eat b
  | expect b expectation => exact forward_expect b expectation
  | name => exact forward_name
  | string => exact forward_string
  | char => exact forward_char
  | integer => exact forward_integer
  | stringOperand table => exact forward_stringOperand table
  | intOperand table => exact forward_intOperand table

/-- A token is read from what is left behind trivia. -/
theorem ignoresTrivia (hr : TakesToken r) : IgnoresTrivia r := by
  cases hr with
  | eat b => exact ignoresTrivia_eat b
  | expect b expectation => exact ignoresTrivia_expect b expectation
  | name => exact ignoresTrivia_name
  | string | char | stringOperand | intOperand => exact ignoresTrivia_significant.bind _
  | integer => exact (ignoresTrivia_eat _).bind _

theorem run_append (hr : TakesToken r) {w : Bytes} (hw : Trivia w) (s : Bytes) :
    r.run (w ++ s) = r.run s :=
  hr.ignoresTrivia (w ++ s) s (skipTrivia_append hw)

/-- What is wrong with a token is wrong at a place of the text that is read. -/
theorem exists_place (hr : TakesToken r) {s rest : Bytes} {e : Fault}
    (h : r.run s = .error e rest) :
    ∃ before place, s = before ++ place ∧ e.place? = some place := by
  have hwithin : FaultsWithin 0 s r := by
    cases hr with
    | eat b => exact faultsIn_eat b
    | expect b expectation => exact faultsIn_expect includesTokens_isWithin b expectation
    | name => exact faultsIn_name
    | string => exact faultsIn_string includesTokens_isWithin
    | char => exact faultsIn_char includesTokens_isWithin
    | integer => exact faultsIn_integer includesTokens_isWithin
    | stringOperand table => exact faultsWithin_stringOperand table
    | intOperand table => exact faultsWithin_intOperand table
  obtain ⟨before, place, hs, hplace, -⟩ := hwithin s List.suffix_rfl e rest h
  exact ⟨before, place, hs, hplace⟩

end TakesToken

/-- Blanks and comments in front of a text are not seen by the readers of tokens: each gives the
same result or the same fault, with the same names and expectations, and leaves the same. A fault
is at a place of the text, and its location counts the trivia in front of that place.

Skipping trivia leaves what is behind blanks and whole comments, where the text is at its end or
starts with neither; there is no other such place, and skipping again takes nothing. -/
theorem leading_trivia_is_ignored :
    (∀ {α : Type} {r : Reader α}, TakesToken r → ∀ w s : Bytes, Trivia w →
      r.run (w ++ s) = r.run s ∧
      ∀ e rest, r.run s = .error e rest →
        ∃ before place, s = before ++ place ∧ e.place? = some place ∧
          (e.map (Location.within s)).place? =
            some ⟨.behind before, Location.excerpt place⟩ ∧
          (e.map (Location.within (w ++ s))).place? =
            some ⟨.behind (w ++ before), Location.excerpt place⟩) ∧
    ∀ s : Bytes, ∃ rest, trivia.run s = .ok () rest ∧
      IsBehindTrivia s rest ∧ StartsToken rest ∧
      (∀ other, IsBehindTrivia s other → StartsToken other → other = rest) ∧
      trivia.run rest = .ok () rest := by
  constructor
  · intro α r hr w s hw
    refine ⟨hr.run_append hw s, ?_⟩
    intro e rest h
    obtain ⟨before, place, rfl, hplace⟩ := hr.exists_place h
    refine ⟨before, place, rfl, hplace, ?_, ?_⟩
    · rw [CompileError.place?_map, hplace, Option.map_some, Location.within_append]
    · rw [CompileError.place?_map, hplace, Option.map_some, ← List.append_assoc,
        Location.within_append]
  · intro s
    refine ⟨skipTrivia s, run_trivia, isBehindTrivia_skipTrivia s, startsToken_skipTrivia s,
      fun other hother hstart => hother.eq_skipTrivia hstart, ?_⟩
    rw [run_trivia, skipTrivia_skipTrivia]

/-- An undeclared name behind a comment and a tab: its location is in the second line. -/
theorem leading_trivia_is_ignored_of_comment :
    TakesToken (stringOperand {}) ∧ Trivia (ofString "// \"a\"\n\t") ∧
      (stringOperand {}).run (ofString "// \"a\"\n\t" ++ ofString "ghost;") =
        .error (.undefinedVariable "ghost" (ofString "ghost;")) (ofString ";") ∧
      Location.within (ofString "// \"a\"\n\t" ++ ofString "ghost;") (ofString "ghost;") =
        ⟨⟨2, 2⟩, "ghost;"⟩ := by
  have hreader : TakesToken (stringOperand {}) := .stringOperand {}
  have htrivia : Trivia (ofString "// \"a\"\n\t") :=
    @Trivia.comment (ofString " \"a\"") [ascii '\t'] (by decide) (.blank (by decide) .nil)
  have hfault : (stringOperand {}).run (ofString "ghost;") =
      .error (.undefinedVariable "ghost" (ofString "ghost;")) (ofString ";") := by
    decide +kernel
  obtain ⟨hignored, -⟩ := leading_trivia_is_ignored
  obtain ⟨hrun, hplaces⟩ := hignored hreader _ (ofString "ghost;") htrivia
  obtain ⟨before, place, hsource, hplace, -, hlocation⟩ := hplaces _ _ hfault
  obtain rfl : ofString "ghost;" = place := Option.some.inj hplace
  obtain rfl : before = [] := List.append_left_eq_self.mp hsource.symm
  have hexcerpt : Location.excerpt (ofString "ghost;") = "ghost;" := by decide +kernel
  rw [hexcerpt] at hlocation
  exact ⟨hreader, htrivia, hrun.trans hfault, Option.some.inj hlocation⟩

end Reader

end ConsoleScript
