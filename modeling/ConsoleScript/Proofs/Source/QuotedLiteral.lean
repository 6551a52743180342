import ConsoleScript.Proofs.Grammar.ValueLiteral
import ConsoleScript.Proofs.Source.Fault

/-!
# Literals between quotes

What stands between quotes is a sequence of units: bytes, and backslashes with the byte behind
them. A string literal goes up to the first double quote that is a unit of its own, and a char
literal has one unit. So a source behind an opening quote can be read in one way only, and each
failure of reading it says how far the units go.
-/

namespace ConsoleScript

open Grammar Bytes

namespace Bytes

/-- The bytes that stand for another byte behind a backslash, each with that byte. -/
def escapeTable : List (UInt8 × UInt8) :=
  [(ascii 'n', ascii '\n'), (ascii 't', ascii '\t'), (ascii 'r', ascii '\r'), (ascii '0', 0)]

/-- A byte that is not in the table stands for itself. -/
theorem unescape_eq_lookup (b : UInt8) : unescape b = (escapeTable.lookup b).getD b := by
  have hcons : ∀ (c d : UInt8) (table : List (UInt8 × UInt8)),
      (((c, d) :: table).lookup b).getD b = if b = c then d else (table.lookup b).getD b := by
    intro c d table
    by_cases hc : b = c
    · simp [hc]
    · have hne : (b == c) = false := beq_false_of_ne hc
      rw [List.lookup_cons, hne, if_neg hc]
  rw [escapeTable, hcons, hcons, hcons, hcons]
  rfl

end Bytes

namespace Grammar

variable {s t : Bytes}

/-- What stands in front of a text is one unit in one way. -/
theorem LiteralUnit.eq_of_append_eq {u v : LiteralUnit}
    (h : u.spelling ++ s = v.spelling ++ t) : u = v ∧ s = t := by
  cases u with
  | plain b hb =>
      cases v with
      | plain c hc =>
          obtain ⟨rfl, rfl⟩ := List.cons.inj h
          exact ⟨rfl, rfl⟩
      | escaped c => exact absurd (List.cons.inj h).1 hb
  | escaped b =>
      cases v with
      | plain c hc => exact absurd (List.cons.inj h).1.symm hc
      | escaped c =>
          obtain ⟨rfl, rfl⟩ := List.cons.inj (List.cons.inj h).2
          exact ⟨rfl, rfl⟩

/-- A unit that is not a quote does not stand where a quote does. -/
theorem LiteralUnit.append_ne_quote_cons {u : LiteralUnit} (hu : u.spelling ≠ [ascii '"'])
    (s t : Bytes) : u.spelling ++ s ≠ ascii '"' :: t := by
  intro h
  cases u with
  | plain b hb =>
      obtain ⟨rfl, -⟩ := List.cons.inj h
      exact hu rfl
  | escaped b => exact absurd (List.cons.inj h).1 (by decide)

namespace StringLiteral

/-- The units in front of the first quote that stands for itself are known from the text. -/
theorem eq_of_append_quote_eq {l m : StringLiteral}
    (h : l.units.flatMap LiteralUnit.spelling ++ ascii '"' :: s =
      m.units.flatMap LiteralUnit.spelling ++ ascii '"' :: t) : l = m ∧ s = t := by
  obtain ⟨us, hus⟩ := l
  obtain ⟨vs, hvs⟩ := m
  obtain ⟨rfl, rfl⟩ := Text.flatMap_append_cons_inj LiteralUnit.eq_of_append_eq
    (fun u hu => LiteralUnit.append_ne_quote_cons (hus u hu))
    (fun v hv => LiteralUnit.append_ne_quote_cons (hvs v hv)) h
  exact ⟨rfl, rfl⟩

end StringLiteral

end Grammar

namespace Reader

variable {α : Type} {s t rest : Bytes} {fault : Fault}

/-! ### Strings -/

/-- The body of a string literal fails in one way, at the end of the source. -/
theorem eq_unterminated_of_stringBody {front : Bytes}
    (h : stringBody front s = .error fault rest) :
    fault = .unterminated .string [] ∧ rest = [] := by
  fun_induction stringBody front s with
  | case1 | case3 =>
      cases h
      exact ⟨rfl, rfl⟩
  | case2 => cases h
  | case4 _ _ _ _ ih => exact ih h
  | case5 _ _ _ _ _ ih => exact ih h

/-- The body of a string literal is not read exactly where no units stand in front of a quote. -/
theorem stringBody_eq_error_iff {front : Bytes} :
    stringBody front s = .error fault rest ↔
      fault = .unterminated .string [] ∧ rest = [] ∧
        ∀ (l : StringLiteral) (after : Bytes),
          s ≠ l.units.flatMap LiteralUnit.spelling ++ ascii '"' :: after := by
  constructor
  · intro h
    obtain ⟨hfault, hrest⟩ := eq_unterminated_of_stringBody h
    refine ⟨hfault, hrest, ?_⟩
    intro l after hs
    rw [stringBody_eq_ok_iff.mpr ⟨l, rfl, hs⟩] at h
    cases h
  · rintro ⟨rfl, rfl, hnone⟩
    cases h : stringBody front s with
    | ok v after =>
        obtain ⟨l, -, hs⟩ := stringBody_eq_ok_iff.mp h
        exact absurd hs (hnone l after)
    | error fault' rest' =>
        obtain ⟨rfl, rfl⟩ := eq_unterminated_of_stringBody h
        rfl

/-! ### Chars -/

theorem charUnit_eq_error_iff :
    charUnit s = .error fault rest ↔
      (s = [] ∨ s = [ascii '\\']) ∧ fault = .unterminated .char [] ∧ rest = [] := by
  cases s with
  | nil => simp [charUnit, unterminated, eq_comm]
  | cons b s =>
      by_cases hb : b = ascii '\\'
      · cases s with
        | nil => simp [charUnit, unterminated, hb, eq_comm]
        | cons c s => simp [charUnit, hb]
      · rw [charUnit_plain hb]
        simp [hb]

theorem charEnd_eq_error_iff :
    charEnd s = .error fault rest ↔
      (s = [] ∧ fault = .unterminated .char [] ∧ rest = []) ∨
        ∃ b after, b ≠ ascii '\'' ∧ s = b :: after ∧ rest = b :: after ∧
          fault = .malformed "Expected closing ' in char literal" (b :: after) := by
  cases s with
  | nil => simp [charEnd, unterminated, eq_comm]
  | cons b s =>
      by_cases hb : b = ascii '\''
      · simp [charEnd, hb]
      · simp only [charEnd, hb, if_false, EStateM.Result.error.injEq, reduceCtorEq, false_and,
          false_or]
        constructor
        · rintro ⟨rfl, rfl⟩
          exact ⟨b, s, hb, rfl, rfl, rfl⟩
        · rintro ⟨_, _, -, hs, rfl, rfl⟩
          obtain ⟨rfl, rfl⟩ := List.cons.inj hs
          exact ⟨rfl, rfl⟩

/-- Behind its opening quote a char literal is not read where the source ends in front of its
closing quote, and where something else stands behind its unit. -/
theorem run_charBody_eq_error_iff :
    charBody.run s = .error fault rest ↔
      ((s = [] ∨ s = [ascii '\\'] ∨ ∃ u : LiteralUnit, s = u.spelling) ∧
          fault = .unterminated .char [] ∧ rest = []) ∨
        ∃ (u : LiteralUnit) (b : UInt8) (after : Bytes), b ≠ ascii '\'' ∧
          s = u.spelling ++ b :: after ∧ rest = b :: after ∧
            fault = .malformed "Expected closing ' in char literal" (b :: after) := by
  refine run_bind_eq_error_iff.trans ?_
  constructor
  · rintro (h | ⟨b, t, hunit, h⟩)
    · obtain ⟨hs, hfault⟩ := charUnit_eq_error_iff.mp h
      exact .inl ⟨by tauto, hfault⟩
    · obtain ⟨u, -, rfl⟩ := charUnit_eq_ok_iff.mp hunit
      rcases run_bind_eq_error_iff.mp h with hend | ⟨⟨⟩, v, -, hpure⟩
      · rcases charEnd_eq_error_iff.mp hend with ⟨rfl, hfault⟩ | ⟨b', after, hb, rfl, hrest⟩
        · exact .inl ⟨.inr (.inr ⟨u, List.append_nil _⟩), hfault⟩
        · exact .inr ⟨u, b', after, hb, rfl, hrest⟩
      · cases hpure
  · rintro (⟨hs | hs | ⟨u, rfl⟩, hfault⟩ | ⟨u, b, after, hb, rfl, hrest⟩)
    · exact .inl (charUnit_eq_error_iff.mpr ⟨.inl hs, hfault⟩)
    · exact .inl (charUnit_eq_error_iff.mpr ⟨.inr hs, hfault⟩)
    · have hunit : charUnit u.spelling = .ok u.value [] :=
        charUnit_eq_ok_iff.mpr ⟨u, rfl, (List.append_nil _).symm⟩
      have hend : charEnd [] = .error fault rest := charEnd_eq_error_iff.mpr (.inl ⟨rfl, hfault⟩)
      exact .inr ⟨u.value, [], hunit, run_bind_eq_error_iff.mpr (.inl hend)⟩
    · have hunit : charUnit (u.spelling ++ b :: after) = .ok u.value (b :: after) :=
        charUnit_eq_ok_iff.mpr ⟨u, rfl, rfl⟩
      have hend : charEnd (b :: after) = .error fault rest :=
        charEnd_eq_error_iff.mpr (.inr ⟨b, after, hb, rfl, hrest⟩)
      exact .inr ⟨u.value, b :: after, hunit, run_bind_eq_error_iff.mpr (.inl hend)⟩

/-! ### Literals behind trivia -/

/-- What stands behind an opening quote is read unit by unit, whatever trivia is in front. A byte
behind a backslash has its meaning from the table of escapes, and each other byte stands for
itself.

A string literal is read exactly where units that are no double quotes stand in front of one: its
value is the values of these units, what is behind the closing quote is left, and there is only
one way to split the text. Otherwise the literal is reported as unterminated and nothing is left.
So a text with a backslash in front of each double quote and each backslash is read back.

A char literal is read exactly where one unit stands in front of a single quote, be the unit a
single quote itself. It is reported as unterminated exactly where the source ends in front of the
closing quote: at once, behind a backslash, or behind the unit. Otherwise the byte behind the unit
is reported, and left. -/
theorem quoted_literals_are_units :
    (∀ b, (LiteralUnit.escaped b).value = (escapeTable.lookup b).getD b) ∧
    (∀ w t : Bytes, Trivia w →
      (∀ v rest, string.run (w ++ ascii '"' :: t) = .ok v rest ↔
        ∃ l : StringLiteral, l.value = v ∧
          t = l.units.flatMap LiteralUnit.spelling ++ ascii '"' :: rest) ∧
      (∀ (l m : StringLiteral) (rest after : Bytes),
        t = l.units.flatMap LiteralUnit.spelling ++ ascii '"' :: rest →
        t = m.units.flatMap LiteralUnit.spelling ++ ascii '"' :: after → l = m ∧ rest = after) ∧
      (∀ fault rest, string.run (w ++ ascii '"' :: t) = .error fault rest ↔
        fault = .unterminated .string [] ∧ rest = [] ∧
          ∀ (l : StringLiteral) (after : Bytes),
            t ≠ l.units.flatMap LiteralUnit.spelling ++ ascii '"' :: after) ∧
      ∀ v rest, string.run (w ++ ascii '"' :: (v.flatMap quotedByte ++ ascii '"' :: rest)) =
        .ok v rest) ∧
    ∀ w t : Bytes, Trivia w →
      (∀ b rest, char.run (w ++ ascii '\'' :: t) = .ok b rest ↔
        ∃ u : LiteralUnit, u.value = b ∧ t = u.spelling ++ ascii '\'' :: rest) ∧
      ∀ fault rest, char.run (w ++ ascii '\'' :: t) = .error fault rest ↔
        ((t = [] ∨ t = [ascii '\\'] ∨ ∃ u : LiteralUnit, t = u.spelling) ∧
            fault = .unterminated .char [] ∧ rest = []) ∨
          ∃ (u : LiteralUnit) (b : UInt8) (after : Bytes), b ≠ ascii '\'' ∧
            t = u.spelling ++ b :: after ∧ rest = b :: after ∧
              fault = .malformed "Expected closing ' in char literal" (b :: after) := by
  have hskip : ∀ {w : Bytes} {quote : UInt8} (t : Bytes), Trivia w → Significant (quote :: t) →
      skipTrivia (w ++ quote :: t) = quote :: t :=
    fun t hw hquote => (skipTrivia_eq_iff hquote).mpr ⟨_, hw, rfl⟩
  have hstring : ∀ {w : Bytes} (t : Bytes), Trivia w →
      string.run (w ++ ascii '"' :: t) = stringBody [] t := fun t hw =>
    run_quoted_of_skipTrivia (hskip t hw (significant_cons (by decide) (by decide)))
  have hchar : ∀ {w : Bytes} (t : Bytes), Trivia w →
      char.run (w ++ ascii '\'' :: t) = charBody.run t := fun t hw =>
    run_quoted_of_skipTrivia (hskip t hw (significant_cons (by decide) (by decide)))
  refine ⟨fun b => unescape_eq_lookup b, ?_, ?_⟩
  · intro w t hw
    refine ⟨?_, ?_, ?_, ?_⟩
    · intro v rest
      rw [hstring t hw, stringBody_eq_ok_iff]
      simp only [List.reverse_nil, List.nil_append, eq_comm]
    · intro l m rest after hl hm
      exact StringLiteral.eq_of_append_quote_eq (hl.symm.trans hm)
    · intro fault rest
      rw [hstring t hw, stringBody_eq_error_iff]
    · intro v rest
      rw [hstring _ hw, stringBody_eq_ok_iff]
      refine ⟨.ofBytes v, (StringLiteral.value_ofBytes v).symm, ?_⟩
      rw [StringLiteral.flatMap_spelling_ofBytes]
  · intro w t hw
    rw [hchar t hw]
    exact ⟨fun b rest => run_charBody_eq_ok_iff, fun fault rest => run_charBody_eq_error_iff⟩

theorem quoted_literals_are_units_of_escaped_quote_and_backslash :
    Trivia (ofString " ") ∧
      string.run (ofString " \"a\\\"b\" c") = .ok (ofString "a\"b") (ofString " c") ∧
      char.run (ofString " '\\") = .error (.unterminated .char []) [] := by
  have hblank : Trivia (ofString " ") := .blank (by decide) .nil
  obtain ⟨-, hstring, hchar⟩ := quoted_literals_are_units
  obtain ⟨-, -, -, hback⟩ := hstring (ofString " ") [] hblank
  refine ⟨hblank, hback (ofString "a\"b") (ofString " c"), ?_⟩
  exact ((hchar (ofString " ") [ascii '\\'] hblank).2 _ _).mpr (.inl ⟨.inr (.inl rfl), rfl, rfl⟩)

end Reader

end ConsoleScript
