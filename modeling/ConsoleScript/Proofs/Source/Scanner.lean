import ConsoleScript.Proofs.Grammar.ValueLiteral
import ConsoleScript.Proofs.Source.LeadingTrivia
import ConsoleScript.Proofs.Source.Position
import Mathlib.Logic.Relation

/-!
# Scanners

A scanner goes over a source byte by byte and counts as it goes: the bytes that it has taken, the
line, and the column in it. What it takes is what readers take, one reader after the other, in any
order, and also after a reader has failed. The counters say the same as counting from the start of
the source does, so the locations of faults may be found in either way.
-/

namespace ConsoleScript

open Grammar Bytes

namespace Bytes

/-- The bytes of names are those of ASCII characters. -/
theorem toNat_lt_of_isNameByte {b : UInt8} (h : isNameByte b = true) : b.toNat < 128 := by
  simp only [isNameByte, isDigit, Bool.or_eq_true, Bool.and_eq_true, decide_eq_true_eq,
    beq_iff_eq, UInt8.le_iff_toNat_le] at h
  rcases h with ((⟨-, h⟩ | ⟨-, h⟩) | ⟨-, h⟩) | rfl
  · exact Nat.lt_of_le_of_lt h (by decide)
  · exact Nat.lt_of_le_of_lt h (by decide)
  · exact Nat.lt_of_le_of_lt h (by decide)
  · decide

/-- A name has one byte for each of its characters. -/
theorem ofString_toText {s : Bytes} (h : ∀ b ∈ s, isNameByte b = true) :
    ofString (toText s) = s := by
  have hchars : ∀ c ∈ s.map Char.ofUInt8, c.toNat < 128 := by
    intro c hc
    obtain ⟨b, hb, rfl⟩ := List.mem_map.mp hc
    exact toNat_lt_of_isNameByte (h b hb)
  have hascii : ascii ∘ Char.ofUInt8 = id := by
    funext b
    exact UInt8.toUInt8_toUInt32 b
  rw [toText, ofString_ofList_of_lt hchars, List.map_map, hascii, List.map_id]

end Bytes

namespace Reader

/-- The readers that a scanner is driven by: those that skip or look ahead, and those of tokens. -/
inductive Scans : {α : Type} → Reader α → Prop
  | trivia : Scans trivia
  | line : Scans line
  | significant : Scans significant
  | token {α : Type} {r : Reader α} (hr : TakesToken r) : Scans r

theorem Scans.forward {α : Type} {r : Reader α} (hr : Scans r) : Forward r := by
  cases hr with
  | trivia => exact forward_trivia
  | line => exact forward_line
  | significant => exact forward_significant
  | token hr => exact hr.forward

/-- A name takes all name bytes in front, and keeps the first of them. -/
theorem exists_run_name (s : Bytes) :
    ∃ n run rest, name.run s = .ok n rest ∧ s.skipTrivia = run ++ rest ∧
      (∀ b ∈ run, isNameByte b = true) ∧ (∀ b ∈ rest.head?, isNameByte b = false) ∧
      ofString n = run.take nameLength := by
  obtain ⟨hs, hrun, hstop⟩ := Text.span_eq_iff.mp
    (⟨rfl, rfl⟩ : s.skipTrivia.takeWhile isNameByte = _ ∧ _)
  refine ⟨_, _, _, run_name, hs, hrun, hstop, ofString_toText ?_⟩
  intro b hb
  exact hrun b (List.mem_of_mem_take hb)

end Reader

/-- How far a source has been gone over, in bytes and as a line and a column. -/
structure Scanner where
  source : Bytes
  cursor : Nat := 0
  position : Position := {}
deriving DecidableEq, Repr

namespace Scanner

/-- What is left of the source. -/
def rest (c : Scanner) : Bytes := c.source.drop c.cursor

/-- The scanner behind the next byte, if there is one. -/
def advance (c : Scanner) : Scanner :=
  match c.source[c.cursor]? with
  | none => c
  | some b => { c with cursor := c.cursor + 1, position := c.position.advance b }

/-- The scanner behind all that a reader takes, also if the reader fails. -/
def after {α : Type} (r : Reader α) (c : Scanner) : Scanner :=
  advance^[c.rest.length - (r.rest c.rest).length] c

/-- The description of the place of the scanner, by its own counters. -/
def location (c : Scanner) : Location := ⟨c.position, Location.excerpt c.rest⟩

/-- One of the readers drives the scanner on. -/
def Step (c d : Scanner) : Prop := ∃ (α : Type) (r : Reader α), r.Scans ∧ d = c.after r

/-- A sequence of readers, of any length and in any order, drives the scanner on. -/
def Reaches : Scanner → Scanner → Prop := Relation.ReflTransGen Step

/-- The counters belong to a place of the source: the position is the one behind all the bytes
in front of the cursor. -/
structure IsCounted (source : Bytes) (c : Scanner) : Prop where
  source_eq : c.source = source
  cursor_le : c.cursor ≤ source.length
  position_eq : c.position = .behind (source.take c.cursor)

variable {source : Bytes} {c d : Scanner}

theorem isCounted_start (source : Bytes) : IsCounted source { source } where
  source_eq := rfl
  cursor_le := Nat.zero_le _
  position_eq := by rw [List.take_zero, Position.behind_nil]

namespace IsCounted

theorem rest_eq (h : IsCounted source c) : c.rest = source.drop c.cursor := by
  rw [rest, h.source_eq]

theorem length_rest (h : IsCounted source c) : c.rest.length = source.length - c.cursor := by
  rw [h.rest_eq, List.length_drop]

/-- One byte moves the cursor by one and the position as the byte says. -/
theorem advance (h : IsCounted source c) (hlt : c.cursor < source.length) :
    IsCounted source c.advance ∧ c.advance.cursor = c.cursor + 1 := by
  have hnext : source[c.cursor]? = some source[c.cursor] := List.getElem?_eq_getElem hlt
  have hadvance : c.advance =
      { c with cursor := c.cursor + 1, position := c.position.advance source[c.cursor] } := by
    rw [Scanner.advance, h.source_eq, hnext]
  rw [hadvance]
  refine ⟨⟨h.source_eq, hlt, ?_⟩, rfl⟩
  show c.position.advance source[c.cursor] = .behind (source.take (c.cursor + 1))
  rw [List.take_add_one, hnext, Option.toList_some, Position.behind_concat, h.position_eq]

theorem iterate_advance (h : IsCounted source c) {n : Nat} (hn : c.cursor + n ≤ source.length) :
    IsCounted source (Scanner.advance^[n] c) ∧
      (Scanner.advance^[n] c).cursor = c.cursor + n := by
  induction n with
  | zero => exact ⟨h, rfl⟩
  | succ n ih =>
      obtain ⟨hcounted, hcursor⟩ := ih (by omega)
      obtain ⟨hnext, hmoved⟩ := hcounted.advance (by omega)
      rw [Function.iterate_succ_apply']
      exact ⟨hnext, by omega⟩

/-- The cursor goes by what a reader takes, and what is left then is what the reader leaves. -/
theorem after {α : Type} {r : Reader α} (h : IsCounted source c) (hr : r.Forward) :
    IsCounted source (c.after r) ∧ c.cursor ≤ (c.after r).cursor ∧
      (c.after r).rest = r.rest c.rest := by
  have hlength := h.length_rest
  have hcursor := h.cursor_le
  have hsuffix := hr c.rest
  have hle := hsuffix.length_le
  obtain ⟨hcounted, hmoved⟩ :=
    h.iterate_advance (n := c.rest.length - (r.rest c.rest).length) (by omega)
  refine ⟨hcounted, ?_, ?_⟩
  · rw [Scanner.after, hmoved]
    exact Nat.le_add_right _ _
  · calc
      (c.after r).rest = source.drop (c.cursor + (c.rest.length - (r.rest c.rest).length)) := by
        rw [← hmoved]
        exact hcounted.rest_eq
      _ = c.rest.drop (c.rest.length - (r.rest c.rest).length) := by
        rw [← List.drop_drop, ← h.rest_eq]
      _ = r.rest c.rest := (List.suffix_iff_eq_drop.mp hsuffix).symm

/-- The counters describe the place as counting from the start of the source does. -/
theorem location_eq (h : IsCounted source c) :
    c.location = Location.within source (source.drop c.cursor) := by
  have hwithin : Location.within source (source.drop c.cursor) =
      ⟨.behind (source.take c.cursor), Location.excerpt (source.drop c.cursor)⟩ := by
    rw [← Location.within_append, List.take_append_drop]
  rw [hwithin, location, h.position_eq, h.rest_eq]

end IsCounted

/-- A sequence of readers keeps the counters right and never moves the cursor back. -/
theorem isCounted_of_reaches (hc : IsCounted source c) (h : Reaches c d) :
    IsCounted source d ∧ c.cursor ≤ d.cursor := by
  induction h with
  | refl => exact ⟨hc, Nat.le_refl _⟩
  | tail _ hstep ih =>
      obtain ⟨hcounted, hle⟩ := ih
      obtain ⟨α, r, hr, rfl⟩ := hstep
      obtain ⟨hnext, hmoved, -⟩ := hcounted.after hr.forward
      exact ⟨hnext, hle.trans hmoved⟩

/-- Wherever a sequence of readers has driven a scanner from the start of a source, failed
readers included, the cursor has not gone back and is not behind the end of the source. The line
is counted by the line breaks in front of the cursor, the column by the bytes behind the last of
them, and the location is the one of the place in the source. The next reader is given what is
left there and takes the scanner to what the reader leaves. A name that is read there takes all
the name bytes in front, and has the first 63 of them. -/
theorem counters_of_reaches (hc : Reaches { source } c) (hd : Reaches c d) :
    d.source = source ∧ c.cursor ≤ d.cursor ∧ d.cursor ≤ source.length ∧
      d.position.line = 1 + (source.take d.cursor).count (ascii '\n') ∧
      d.position.column =
        1 + ((source.take d.cursor).rtakeWhile (· != ascii '\n')).length ∧
      d.location = Location.within source (source.drop d.cursor) ∧
      (∀ {α : Type} (r : Reader α), r.Scans → (d.after r).rest = r.rest (source.drop d.cursor)) ∧
      ∃ n run rest, Reader.name.run (source.drop d.cursor) = .ok n rest ∧
        skipTrivia (source.drop d.cursor) = run ++ rest ∧ (∀ b ∈ run, isNameByte b = true) ∧
        (∀ b ∈ rest.head?, isNameByte b = false) ∧ ofString n = run.take 63 ∧
        (ofString n).length ≤ 63 := by
  obtain ⟨hstart, -⟩ := isCounted_of_reaches (isCounted_start source) hc
  obtain ⟨hcounted, hle⟩ := isCounted_of_reaches hstart hd
  have hposition : d.position = _ := hcounted.position_eq.trans (Position.behind_eq _)
  refine ⟨hcounted.source_eq, hle, hcounted.cursor_le, by rw [hposition], by rw [hposition],
    hcounted.location_eq, ?_, ?_⟩
  · intro α r hr
    obtain ⟨-, -, hrest⟩ := hcounted.after hr.forward
    rw [hrest, hcounted.rest_eq]
  · obtain ⟨n, run, rest, hname, hskip, hrun, hstop, hn⟩ :=
      Reader.exists_run_name (source.drop d.cursor)
    refine ⟨n, run, rest, hname, hskip, hrun, hstop, hn, ?_⟩
    rw [hn]
    exact List.length_take_le _ _

/-- A string with a line break in it is read, and then a char literal fails at its second byte. -/
theorem counters_of_reaches_of_broken_string_and_char :
    Reaches { source := ofString "\"a\nb\" 'xy" } ⟨ofString "\"a\nb\" 'xy", 5, ⟨2, 3⟩⟩ ∧
      Reaches ⟨ofString "\"a\nb\" 'xy", 5, ⟨2, 3⟩⟩ ⟨ofString "\"a\nb\" 'xy", 8, ⟨2, 6⟩⟩ ∧
      location ⟨ofString "\"a\nb\" 'xy", 8, ⟨2, 6⟩⟩ =
        Location.within (ofString "\"a\nb\" 'xy") (ofString "y") := by
  have hstring : Reaches { source := ofString "\"a\nb\" 'xy" }
      ⟨ofString "\"a\nb\" 'xy", 5, ⟨2, 3⟩⟩ :=
    .single ⟨_, Reader.string, .token .string, by decide +kernel⟩
  have hchar : Reaches ⟨ofString "\"a\nb\" 'xy", 5, ⟨2, 3⟩⟩
      ⟨ofString "\"a\nb\" 'xy", 8, ⟨2, 6⟩⟩ :=
    .single ⟨_, Reader.char, .token .char, by decide +kernel⟩
  obtain ⟨-, -, -, -, -, hlocation, -⟩ := counters_of_reaches hstring hchar
  exact ⟨hstring, hchar, hlocation⟩

end Scanner

end ConsoleScript
