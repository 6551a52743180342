import ConsoleScript.Proofs.Grammar.Clause

/-!
# Texts of clauses

A clause may have any trivia in front of its tokens. Here are declarations and moves of the
cursor as they are mostly written, with single blanks.
-/

namespace ConsoleScript.Grammar

open Bytes

variable {t : Token} {b : UInt8} {rest : Bytes}

namespace Token

theorem not_extends_head?_cons (h : ¬t.Extends b) : ∀ c ∈ (b :: rest).head?, ¬t.Extends c := by
  intro c hc
  cases hc
  exact h

/-- A token stands in front of a byte that does not belong to it. -/
theorem leads_cons (h : ¬t.Extends b) : t.Leads (t.spelling ++ b :: rest) (b :: rest) :=
  ⟨[], .nil, rfl, not_extends_head?_cons h⟩

theorem leads_blank_cons (h : ¬t.Extends b) :
    t.Leads (ascii ' ' :: (t.spelling ++ b :: rest)) (b :: rest) :=
  ⟨[ascii ' '], .blank (by decide) .nil, rfl, not_extends_head?_cons h⟩

theorem leads_mark (m : Mark) (rest : Bytes) : (mark m).Leads (m.byte :: rest) rest :=
  ⟨[], .nil, rfl, fun _ _ => id⟩

theorem leads_blank_mark (m : Mark) (rest : Bytes) :
    (mark m).Leads (ascii ' ' :: m.byte :: rest) rest :=
  ⟨[ascii ' '], .blank (by decide) .nil, rfl, fun _ _ => id⟩

end Token

theorem Literal.not_extends_semicolon (literal : Literal) :
    ¬literal.token.Extends (ascii ';') := by
  cases literal with
  | string l | char u => exact id
  | integer l => exact (by decide : ¬isDigit (ascii ';') = true)

/-- A declaration as it is written with single blanks. -/
def declarationText (name : Word) (literal : Literal) : Bytes :=
  ofString "var " ++ (name.bytes ++ (ofString " = " ++ (literal.token.spelling ++ [ascii ';'])))

theorem renders_declarationText (name : Word) (literal : Literal) :
    Renders (Clause.declaration name literal).tokens (declarationText name literal) [] := by
  have hblank : ¬isNameByte (ascii ' ') = true := by decide
  exact ⟨_, Token.leads_cons (t := .word Keyword.var.word) hblank,
    _, Token.leads_blank_cons (t := .word name) hblank, _, Token.leads_blank_mark .equals _,
    _, Token.leads_blank_cons literal.not_extends_semicolon, _, Token.leads_mark .semicolon _, rfl⟩

/-- A move between literals. -/
def setCursorClause (x : IntLiteral) (comma : Bool) (y : IntLiteral) : Clause :=
  .statement (.setCursor (.literal x) comma (.literal y))

/-- A move as it is written with single blanks. -/
def setCursorText (x : IntLiteral) (comma : Bool) (y : IntLiteral) : Bytes :=
  ofString "setcursor " ++ (x.spelling ++
    ((if comma then ofString ", " else ofString " ") ++ (y.spelling ++ [ascii ';'])))

theorem isRendering_setCursorText (x : IntLiteral) (comma : Bool) (y : IntLiteral) :
    IsRendering [setCursorClause x comma y] (setCursorText x comma y) := by
  have hblank : ¬isNameByte (ascii ' ') = true := by decide
  have hkeyword : ∀ rest, (Token.word Keyword.setCursor.word).Leads
      (ofString "setcursor " ++ rest) (ascii ' ' :: rest) := fun rest =>
    Token.leads_cons (t := .word Keyword.setCursor.word) hblank
  have hoperand : ∀ (l : IntLiteral) (b : UInt8) (rest : Bytes), isDigit b = false →
      (Token.integer l).Leads (ascii ' ' :: (l.spelling ++ b :: rest)) (b :: rest) :=
    fun l b rest hb => Token.leads_blank_cons (t := .integer l) (by simp [Token.Extends, hb])
  have hy : Renders [.integer y, .mark .semicolon]
      (ascii ' ' :: (y.spelling ++ [ascii ';'])) [] :=
    ⟨_, hoperand y _ _ (by decide), _, Token.leads_mark .semicolon _, rfl⟩
  refine ⟨[], ?_, .trivia .nil⟩
  cases comma with
  | true =>
      exact ⟨_, hkeyword _, _, hoperand x (ascii ',') _ (by decide),
        _, Token.leads_mark .comma _, hy⟩
  | false => exact ⟨_, hkeyword _, _, hoperand x (ascii ' ') _ (by decide), hy⟩

end ConsoleScript.Grammar
