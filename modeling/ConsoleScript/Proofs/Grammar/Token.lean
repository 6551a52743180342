import ConsoleScript.Proofs.Grammar.Trivia
import ConsoleScript.Source.Literal

/-!
# Tokens of the grammar

A source is a sequence of tokens with trivia in front of them. A token is given
as it is written, so that its value and its text can be told apart.
-/

namespace ConsoleScript.Grammar

open Bytes

/-- A run of name bytes. -/
structure Word where
  bytes : Bytes
  ne_nil : bytes ≠ []
  isNameByte_of_mem : ∀ b ∈ bytes, isNameByte b = true

namespace Word

/-- What tells a word from others: its first bytes. -/
def text (w : Word) : String := toText (w.bytes.take Reader.nameLength)

end Word

/-- A byte of a literal as it is written: it stands for itself, or a backslash in
front of it gives it another meaning. -/
inductive LiteralUnit where
  | plain (b : UInt8) (hb : b ≠ ascii '\\')
  | escaped (b : UInt8)

namespace LiteralUnit

def spelling : LiteralUnit → Bytes
  | plain b _ => [b]
  | escaped b => [ascii '\\', b]

def value : LiteralUnit → UInt8
  | plain b _ => b
  | escaped b => unescape b

end LiteralUnit

/-- A text between double quotes, in which no double quote stands for itself. -/
structure StringLiteral where
  units : List LiteralUnit
  no_quote : ∀ u ∈ units, u.spelling ≠ [ascii '"']

namespace StringLiteral

def spelling (l : StringLiteral) : Bytes :=
  ascii '"' :: (l.units.flatMap LiteralUnit.spelling ++ [ascii '"'])

def value (l : StringLiteral) : Bytes := l.units.map LiteralUnit.value

end StringLiteral

/-- Decimal digits, which a minus may precede. -/
structure IntLiteral where
  negative : Bool
  digits : Bytes
  ne_nil : digits ≠ []
  isDigit_of_mem : ∀ b ∈ digits, isDigit b = true

namespace IntLiteral

def spelling (l : IntLiteral) : Bytes :=
  if l.negative then ascii '-' :: l.digits else l.digits

/-- The number that the digits stand for. -/
def magnitude (l : IntLiteral) : Nat :=
  l.digits.foldl (fun n d => 10 * n + (d - ascii '0').toNat) 0

/-- The number that the literal stands for. -/
def number (l : IntLiteral) : Int := if l.negative then -l.magnitude else l.magnitude

/-- The number as an integer of 32 bits, which wraps around. -/
def value (l : IntLiteral) : Int32 := .ofInt l.number

end IntLiteral

/-- The punctuation of the language. -/
inductive Mark where
  | equals
  | semicolon
  | comma
  | openBrace
  | closeBrace
deriving DecidableEq, Repr

/-- The byte of a punctuation mark. -/
def Mark.byte : Mark → UInt8
  | equals => ascii '='
  | semicolon => ascii ';'
  | comma => ascii ','
  | openBrace => ascii '\x7b'
  | closeBrace => ascii '\x7d'

/-- A part of a source that has no trivia in it. -/
inductive Token where
  | word (w : Word)
  | string (l : StringLiteral)
  /-- One unit between single quotes. -/
  | char (u : LiteralUnit)
  | integer (l : IntLiteral)
  | mark (m : Mark)
  /-- A number sign and the rest of its line. -/
  | remark (text : Bytes) (htext : ascii '\n' ∉ text)

namespace Token

/-- The bytes of a token. -/
def spelling : Token → Bytes
  | word w => w.bytes
  | string l => l.spelling
  | char u => ascii '\'' :: (u.spelling ++ [ascii '\''])
  | integer l => l.spelling
  | mark m => [m.byte]
  | remark text _ => ascii '#' :: text

/-- The byte behind a token would be taken for a part of it. -/
def Extends : Token → UInt8 → Prop
  | word _, b => isNameByte b = true
  | integer _, b => isDigit b = true
  | remark .., b => b ≠ ascii '\n'
  | string _, _ | char _, _ | mark _, _ => False

/-- The token stands behind trivia at the start of `s`, and `rest` is left behind it. -/
def Leads (t : Token) (s rest : Bytes) : Prop :=
  ∃ w, Trivia w ∧ s = w ++ (t.spelling ++ rest) ∧ ∀ b ∈ rest.head?, ¬t.Extends b

end Token

/-- The tokens stand one behind the other at the start of `s`, with trivia in front
of each, and `rest` is left behind them. -/
def Renders : List Token → Bytes → Bytes → Prop
  | [], s, rest => s = rest
  | t :: ts, s, rest => ∃ u, t.Leads s u ∧ Renders ts u rest

variable {t : Token} {ts us : List Token} {s rest : Bytes}

/-! ### First bytes -/

/-- A byte of a class is none that is outside of it. -/
theorem ne_of_class {p : UInt8 → Bool} {b c : UInt8} (hb : p b = true) (hc : p c = false) :
    b ≠ c := by
  rintro rfl
  rw [hb] at hc
  cases hc

theorem isBlank_eq_false {p : UInt8 → Bool} {b : UInt8} (hb : p b = true)
    (hp : ∀ c ∈ [ascii ' ', ascii '\t', ascii '\r', ascii '\n'], p c = false) :
    isBlank b = false := by
  simp only [isBlank, Bool.or_eq_false_iff, beq_eq_false_iff_ne]
  exact ⟨⟨⟨ne_of_class hb (hp _ (by simp)), ne_of_class hb (hp _ (by simp))⟩,
    ne_of_class hb (hp _ (by simp))⟩, ne_of_class hb (hp _ (by simp))⟩

theorem significant_cons {b : UInt8} (hb : isBlank b = false) (hslash : b ≠ ascii '/') :
    Significant (b :: s) :=
  ⟨hb, fun h => hslash h.1⟩

theorem Word.exists_cons (w : Word) : ∃ b u, w.bytes = b :: u ∧ isNameByte b = true := by
  obtain ⟨b, u, hw⟩ := List.exists_cons_of_ne_nil w.ne_nil
  exact ⟨b, u, hw, w.isNameByte_of_mem b (by simp [hw])⟩

theorem IntLiteral.exists_cons (l : IntLiteral) :
    ∃ b u, l.digits = b :: u ∧ isDigit b = true := by
  obtain ⟨b, u, hl⟩ := List.exists_cons_of_ne_nil l.ne_nil
  exact ⟨b, u, hl, l.isDigit_of_mem b (by simp [hl])⟩

theorem Word.head?_bytes_ne (w : Word) {b : UInt8} (hb : isNameByte b = false) :
    w.bytes.head? ≠ some b := by
  obtain ⟨c, u, hw, hc⟩ := w.exists_cons
  rw [hw, List.head?_cons, ne_eq, Option.some.injEq]
  exact ne_of_class hc hb

/-- An integer literal starts with its minus or with a digit. -/
theorem IntLiteral.head?_spelling_ne (l : IntLiteral) {b : UInt8} (hminus : ascii '-' ≠ b)
    (hb : isDigit b = false) : l.spelling.head? ≠ some b := by
  rw [spelling]
  split
  · rwa [List.head?_cons, ne_eq, Option.some.injEq]
  · obtain ⟨c, u, hl, hc⟩ := l.exists_cons
    rw [hl, List.head?_cons, ne_eq, Option.some.injEq]
    exact ne_of_class hc hb

/-- A token starts with a byte that is not skipped as trivia. -/
theorem Token.significant (t : Token) (rest : Bytes) : Significant (t.spelling ++ rest) := by
  cases t with
  | word w =>
      obtain ⟨b, u, hw, hb⟩ := w.exists_cons
      rw [spelling, hw]
      exact significant_cons (isBlank_eq_false hb (by decide +kernel)) (ne_of_class hb (by decide))
  | string l => exact significant_cons (by decide) (by decide)
  | char u => exact significant_cons (by decide) (by decide)
  | integer l =>
      obtain ⟨b, u, hl, hb⟩ := l.exists_cons
      rw [spelling, IntLiteral.spelling]
      split
      · exact significant_cons (by decide) (by decide)
      · rw [hl]
        exact significant_cons (isBlank_eq_false hb (by decide +kernel))
          (ne_of_class hb (by decide))
  | mark m => cases m <;> exact significant_cons (by decide) (by decide)
  | remark text htext => exact significant_cons (by decide) (by decide)

/-! ### Tokens in front -/

namespace Token

theorem leads_iff :
    t.Leads s rest ↔
      skipTrivia s = t.spelling ++ rest ∧ ∀ b ∈ rest.head?, ¬t.Extends b := by
  rw [skipTrivia_eq_iff (t.significant rest)]
  constructor
  · rintro ⟨w, hw, hs, hrest⟩
    exact ⟨⟨w, hw, hs⟩, hrest⟩
  · rintro ⟨⟨w, hw, hs⟩, hrest⟩
    exact ⟨w, hw, hs, hrest⟩

/-- The next significant byte is the first of the token. -/
theorem head?_skipTrivia_of_leads (h : t.Leads s rest) :
    (skipTrivia s).head? = t.spelling.head? := by
  have hsig := t.significant []
  rw [(leads_iff.mp h).1]
  cases hspelling : t.spelling with
  | nil =>
      rw [hspelling] at hsig
      exact hsig.elim
  | cons b u => rfl

/-- Trivia in front of a token does not matter. -/
@[simp] theorem leads_skipTrivia_iff : t.Leads (skipTrivia s) rest ↔ t.Leads s rest := by
  rw [leads_iff, leads_iff, skipTrivia_skipTrivia]

end Token

theorem renders_singleton : Renders [t] s rest ↔ t.Leads s rest := by
  simp [Renders]

theorem renders_append :
    Renders (ts ++ us) s rest ↔ ∃ u, Renders ts s u ∧ Renders us u rest := by
  induction ts generalizing s with
  | nil => simp [Renders]
  | cons t ts ih =>
      simp only [List.cons_append, Renders, ih]
      constructor
      · rintro ⟨v, ht, u, hts, hus⟩
        exact ⟨u, ⟨v, ht, hts⟩, hus⟩
      · rintro ⟨u, ⟨v, ht, hts⟩, hus⟩
        exact ⟨v, ht, u, hts, hus⟩

theorem renders_skipTrivia_iff (hts : ts ≠ []) :
    Renders ts (skipTrivia s) rest ↔ Renders ts s rest := by
  cases ts with
  | nil => exact absurd rfl hts
  | cons t ts => simp [Renders]

theorem Token.Leads.suffix (h : t.Leads s rest) : rest <:+ s := by
  obtain ⟨w, -, rfl, -⟩ := h
  exact (List.suffix_append _ _).trans (List.suffix_append _ _)

theorem Renders.suffix (h : Renders ts s rest) : rest <:+ s := by
  induction ts generalizing s with
  | nil =>
      cases h
      exact List.suffix_rfl
  | cons t ts ih =>
      obtain ⟨u, ht, hts⟩ := h
      exact (ih hts).trans ht.suffix

end ConsoleScript.Grammar
