import ConsoleScript.Proofs.Source.Rounds
import ConsoleScript.Proofs.Source.Scanner

/-!
# Operations of scanners

All that a scanner takes or skips it takes byte by byte, and counts each byte as it does. Here its
operations are written down on the counters alone. At every place of a source, each of them gives
what the reader gives that goes by what is left of the source, an error has the location that the
counters show, and the scanner then stands where the reader leaves off. So whatever operations
drive a scanner on, they drive it as readers do.

## Implementation notes

`Follows` compares an operation with a reader and is closed under bind. Only loops are compared
byte by byte.
-/

namespace ConsoleScript

open Bytes

namespace Scanner

/-- What an operation gives: a result or an error, and the scanner behind it. -/
abbrev Outcome := EStateM.Result (CompileError Location) Scanner

/-- Drives a scanner on. -/
abbrev Operation := EStateM (CompileError Location) Scanner

variable {α β : Type} {c d : Scanner} {b : UInt8} {source s : Bytes}

/-- The next byte. -/
def peek? (c : Scanner) : Option UInt8 := c.source[c.cursor]?

/-- The byte behind the next one. -/
def peekNext? (c : Scanner) : Option UInt8 := c.source[c.cursor + 1]?

/-! ### Single bytes -/

theorem advance_of_peek? (h : c.peek? = some b) :
    c.advance = { c with cursor := c.cursor + 1, position := c.position.advance b } := by
  rw [peek?] at h
  rw [advance, h]

theorem rest_of_peek?_eq_none (h : c.peek? = none) : c.rest = [] :=
  List.drop_eq_nil_of_le (List.getElem?_eq_none_iff.mp h)

theorem rest_of_peek? (h : c.peek? = some b) : c.rest = b :: c.advance.rest := by
  obtain ⟨hlt, hb⟩ := List.getElem?_eq_some_iff.mp h
  rw [advance_of_peek? h, rest, List.drop_eq_getElem_cons hlt, hb]
  rfl

theorem peek?_eq_head? (c : Scanner) : c.peek? = c.rest.head? := by
  rw [rest, List.head?_drop]
  rfl

theorem peekNext?_eq_head? (h : c.peek? = some b) : c.peekNext? = c.advance.rest.head? := by
  rw [← peek?_eq_head?, advance_of_peek? h]
  rfl

theorem length_rest_advance_lt (h : c.peek? = some b) :
    c.advance.rest.length < c.rest.length := by
  rw [rest_of_peek? h]
  exact Nat.lt_succ_self _

theorem IsCounted.advance_of_peek? (h : IsCounted source c) (hb : c.peek? = some b) :
    IsCounted source c.advance := by
  obtain ⟨hlt, -⟩ := List.getElem?_eq_some_iff.mp hb
  rw [h.source_eq] at hlt
  exact (h.advance hlt).1

theorem IsCounted.location_eq_within_rest (h : IsCounted source c) :
    c.location = Location.within source c.rest := by
  rw [h.location_eq, h.rest_eq]

/-- The place of a scanner and its counters are known from what is left. -/
theorem IsCounted.eq_of_rest_eq (hc : IsCounted source c) (hd : IsCounted source d)
    (h : c.rest = d.rest) : c = d := by
  have hcursor : c.cursor = d.cursor := by
    have hlength := congrArg List.length h
    have hc_le := hc.cursor_le
    have hd_le := hd.cursor_le
    rw [hc.length_rest, hd.length_rest] at hlength
    omega
  have hposition : c.position = d.position := by
    rw [hc.position_eq, hd.position_eq, hcursor]
  cases c with
  | mk text cursor position =>
      cases d with
      | mk text' cursor' position' =>
          have htext : text = text' := hc.source_eq.trans hd.source_eq.symm
          have hcursor : cursor = cursor' := hcursor
          have hposition : position = position' := hposition
          rw [htext, hcursor, hposition]

/-! ### Skipping -/

/-- Skips to the next line break. -/
def skipLine (c : Scanner) : Scanner :=
  match _h : c.peek? with
  | none => c
  | some b => if b = ascii '\n' then c else skipLine c.advance
termination_by c.rest.length
decreasing_by exact length_rest_advance_lt _h

theorem rest_skipLine (c : Scanner) : c.skipLine.rest = c.rest.skipLine := by
  fun_induction skipLine c with
  | case1 c h => rw [rest_of_peek?_eq_none h]; rfl
  | case2 c h => rw [rest_of_peek? h]; rfl
  | case3 c b h hb ih =>
      rw [ih, rest_of_peek? h]
      exact (List.dropWhile_cons_of_pos (by simpa using hb)).symm

theorem IsCounted.skipLine (h : IsCounted source c) : IsCounted source c.skipLine := by
  fun_induction Scanner.skipLine c with
  | case1 | case2 => exact h
  | case3 c b hb _ ih => exact ih (h.advance_of_peek? hb)

/-- Skips blanks and comments. A comment starts with two slashes. -/
def skipTrivia (c : Scanner) : Scanner :=
  match _h : c.peek? with
  | none => c
  | some b =>
    if isBlank b then skipTrivia c.advance
    else if _hcomment : b = ascii '/' ∧ c.peekNext? = some (ascii '/') then skipTrivia c.skipLine
    else c
termination_by c.rest.length
decreasing_by
  · exact length_rest_advance_lt _h
  · rw [rest_skipLine, rest_of_peek? _h, _hcomment.1]
    exact length_skipLine_cons_lt (by decide) _

theorem rest_skipTrivia (c : Scanner) : c.skipTrivia.rest = c.rest.skipTrivia := by
  fun_induction skipTrivia c with
  | case1 c h => rw [rest_of_peek?_eq_none h, Grammar.skipTrivia_nil]
  | case2 c b h hblank ih => rw [ih, rest_of_peek? h, Grammar.skipTrivia_blank hblank]
  | case3 c b h hblank hcomment ih =>
      have hline : Bytes.skipLine (b :: c.advance.rest) = Bytes.skipLine c.advance.rest := by
        rw [hcomment.1, Bytes.skipLine, List.dropWhile_cons_of_pos (by decide)]
        rfl
      rw [peekNext?_eq_head? h] at hcomment
      rw [ih, rest_skipLine, rest_of_peek? h, hline, Bytes.skipTrivia, if_neg hblank,
        if_pos hcomment]
  | case4 c b h hblank hcomment =>
      rw [peekNext?_eq_head? h] at hcomment
      rw [rest_of_peek? h, Bytes.skipTrivia, if_neg hblank, if_neg hcomment]

theorem IsCounted.skipTrivia (h : IsCounted source c) : IsCounted source c.skipTrivia := by
  fun_induction Scanner.skipTrivia c with
  | case1 | case4 => exact h
  | case2 c b hb _ ih => exact ih (h.advance_of_peek? hb)
  | case3 c b hb _ _ ih => exact ih h.skipLine

/-! ### Comparing operations with readers -/

/-- Both have come to the same result or fault at the same place. -/
inductive Agrees (source : Bytes) : Outcome α → Reading α → Prop
  | ok {a : α} {d : Scanner} {s : Bytes} (hd : IsCounted source d) (hs : d.rest = s) :
      Agrees source (.ok a d) (.ok a s)
  | error {e : CompileError Location} {e' : Fault} {d : Scanner} {s : Bytes}
      (hd : IsCounted source d) (hs : d.rest = s) (he : e = e'.map (Location.within source)) :
      Agrees source (.error e d) (.error e' s)

/-- Wherever a scanner stands, the operation does what the reader does. -/
def Follows (source : Bytes) (op : Operation α) (r : Reader α) : Prop :=
  ∀ c, IsCounted source c → Agrees source (op.run c) (r.run c.rest)

theorem Follows.bind {op : Operation α} {r : Reader α} {f : α → Operation β} {g : α → Reader β}
    (h : Follows source op r) (hnext : ∀ a, Follows source (f a) (g a)) :
    Follows source (op >>= f) (r >>= g) := by
  intro c hc
  have hfirst := h c hc
  rw [EStateM.run_bind, EStateM.run_bind]
  generalize op.run c = outcome at hfirst ⊢
  generalize r.run c.rest = reading at hfirst ⊢
  cases hfirst with
  | ok hd hs =>
      rw [← hs]
      exact hnext _ _ hd
  | error hd hs he => exact .error hd hs he

theorem follows_pure (a : α) : Follows source (pure a) (pure a) :=
  fun _ hc => .ok hc rfl

theorem follows_throw {e : CompileError Location} {e' : Fault}
    (he : e = e'.map (Location.within source)) :
    Follows source (throw e : Operation α) (throw e') :=
  fun _ hc => .error hc rfl he

/-! ### Operations -/

def trivia : Operation Unit := fun c => .ok () c.skipTrivia

def line : Operation Unit := fun c => .ok () c.skipLine

def peek : Operation (Option UInt8) := fun c => .ok c.peek? c

/-- Takes the next byte. -/
def next : Operation (Option UInt8) := fun c => .ok c.peek? c.advance

/-- The location by the scanner's own counters. -/
def locate : Operation Location := fun c => .ok c.location c

def malformed (expectation : String) : Operation α := fun c =>
  .error (.malformed expectation c.location) c

def unterminated (literal : LiteralKind) : Operation α := fun c =>
  .error (.unterminated literal c.location) c

/-- The next byte behind trivia, without taking it. -/
def significant : Operation (Option UInt8) := do
  trivia
  peek

/-- Takes the given byte if it is the next one behind trivia. -/
def eat (b : UInt8) : Operation Bool := do
  if (← significant) = some b then
    let _ ← next
    return true
  else return false

def expect (b : UInt8) (expectation : String) : Operation Unit := do
  unless ← eat b do malformed expectation

/-- Takes name bytes, and keeps the first of them behind those that are kept already. -/
def nameBytes (n : Bytes) (c : Scanner) : Outcome String :=
  match _h : c.peek? with
  | none => .ok (toText n) c
  | some b =>
    if isNameByte b then
      nameBytes (if n.length < Reader.nameLength then n ++ [b] else n) c.advance
    else .ok (toText n) c
termination_by c.rest.length
decreasing_by exact length_rest_advance_lt _h

def name : Operation String := do
  trivia
  nameBytes []

def requiredName (expectation : String) : Operation String := do
  let n ← name
  if n.isEmpty then malformed expectation else return n

/-- Takes the rest of a string literal. The value is collected backwards. -/
def stringBody (value : Bytes) (c : Scanner) : Outcome Bytes :=
  match _h : c.peek? with
  | none => unterminated .string c.advance
  | some b =>
    if b = ascii '"' then .ok value.reverse c.advance
    else if b = ascii '\\' then
      match _h' : c.advance.peek? with
      | none => unterminated .string c.advance.advance
      | some e => stringBody (unescape e :: value) c.advance.advance
    else stringBody (b :: value) c.advance
termination_by c.rest.length
decreasing_by
  · exact (length_rest_advance_lt _h').trans (length_rest_advance_lt _h)
  · exact length_rest_advance_lt _h

/-- Takes what stands between quotes, from the opening one on. -/
def quoted (quote : UInt8) (body : Operation α) (expectation : String) : Operation α := do
  if (← significant) = some quote then
    let _ ← next
    body
  else malformed expectation

def string : Operation Bytes := quoted (ascii '"') (stringBody []) "Expected string literal"

def charUnit : Operation UInt8 := do
  match ← next with
  | none => unterminated .char
  | some b =>
    if b = ascii '\\' then
      match ← next with
      | none => unterminated .char
      | some e => return unescape e
    else return b

def charEnd : Operation Unit := do
  match ← peek with
  | none => unterminated .char
  | some b =>
    if b = ascii '\'' then
      let _ ← next
    else malformed "Expected closing ' in char literal"

def charBody : Operation UInt8 := do
  let b ← charUnit
  charEnd
  return b

def char : Operation UInt8 := quoted (ascii '\'') charBody "Expected char literal"

/-- Takes digits behind those whose number is `n`. -/
def laterDigits (n : Int64) (c : Scanner) : Outcome Int64 :=
  match _h : c.peek? with
  | none => .ok n c
  | some b =>
    if isDigit b then laterDigits (n * 10 + (b - ascii '0').toUInt64.toInt64) c.advance
    else .ok n c
termination_by c.rest.length
decreasing_by exact length_rest_advance_lt _h

def digits : Operation Int64 := fun c =>
  if c.peek?.any isDigit then laterDigits 0 c else malformed "Expected integer literal" c

def integer : Operation Int32 := do
  let negative ← eat (ascii '-')
  let n ← digits
  return (if negative then -n else n).toInt32

/-- Takes the name of a constant of a kind. -/
def constant (table : VariableTable) (kind : ValueKind) (select : Value → Option α)
    (expectation : String) : Operation α := do
  let location ← locate
  let name ← requiredName expectation
  match table.find? name with
  | none => throw (.undefinedVariable name location)
  | some v =>
    match select v.value with
    | none => throw (.wrongKind name kind location)
    | some value => return value

def stringOperand (table : VariableTable) : Operation Bytes := do
  if (← significant) = some (ascii '"') then string
  else constant table .string Value.string? "Expected string literal or variable"

def intOperand (table : VariableTable) : Operation Int32 := do
  if (← significant).any Reader.startsInteger then integer
  else constant table .int Value.int? "Expected int literal or variable"

/-! ### Operations follow readers -/

theorem follows_trivia : Follows source trivia Reader.trivia :=
  fun c hc => .ok hc.skipTrivia c.rest_skipTrivia

theorem follows_line : Follows source line Reader.line :=
  fun c hc => .ok hc.skipLine c.rest_skipLine

theorem follows_peek : Follows source peek Reader.peek := by
  intro c hc
  show Agrees source (.ok c.peek? c) (.ok c.rest.head? c.rest)
  rw [peek?_eq_head?]
  exact .ok hc rfl

theorem follows_significant : Follows source significant Reader.significant :=
  follows_trivia.bind fun _ => follows_peek

theorem follows_malformed (expectation : String) :
    Follows source (malformed expectation : Operation α) (Reader.malformed expectation) :=
  fun _ hc => .error hc rfl (congrArg _ hc.location_eq_within_rest)

/-- At the end of a source, a literal that goes on is not terminated. -/
theorem IsCounted.agrees_unterminated (hc : IsCounted source c) (hpeek : c.peek? = none)
    (literal : LiteralKind) :
    Agrees source (unterminated literal c : Outcome α) (Reader.unterminated literal) := by
  have hrest := rest_of_peek?_eq_none hpeek
  apply Agrees.error hc hrest
  rw [hc.location_eq_within_rest, hrest]
  rfl

/-- What a reader is given to find out where it starts is the location there. -/
theorem follows_locate_bind {f : Location → Operation α} {g : Bytes → Reader α}
    (h : ∀ place, Follows source (f (Location.within source place)) (g place)) :
    Follows source (locate >>= f) (get >>= g) := by
  intro c hc
  have hplace := h c.rest c hc
  rw [← hc.location_eq_within_rest] at hplace
  exact hplace

theorem advance_of_peek?_eq_none (h : c.peek? = none) : c.advance = c := by
  rw [peek?] at h
  rw [advance, h]

theorem run_peek (c : Scanner) : peek.run c = .ok c.peek? c := rfl

theorem run_next (c : Scanner) : next.run c = .ok c.peek? c.advance := rfl

theorem run_significant (c : Scanner) :
    significant.run c = .ok c.skipTrivia.peek? c.skipTrivia := rfl

theorem follows_eat (b : UInt8) : Follows source (eat b) (Reader.eat b) := by
  intro c hc
  have hskipped := hc.skipTrivia
  have hrest := c.rest_skipTrivia
  rw [eat, EStateM.run_bind, run_significant]
  cases hpeek : c.skipTrivia.peek? with
  | none =>
      rw [rest_of_peek?_eq_none hpeek] at hrest
      rw [Reader.run_eat_of_nil hrest.symm]
      exact .ok hskipped (rest_of_peek?_eq_none hpeek)
  | some b' =>
      rw [rest_of_peek? hpeek] at hrest
      rw [Reader.run_eat_of_cons hrest.symm]
      by_cases hb : b' = b
      · subst hb
        simp only [if_true]
        exact .ok (hskipped.advance_of_peek? hpeek) rfl
      · simp only [Option.some.injEq, if_neg hb]
        exact .ok hskipped (rest_of_peek? hpeek)

theorem follows_expect (b : UInt8) (expectation : String) :
    Follows source (expect b expectation) (Reader.expect b expectation) := by
  apply (follows_eat b).bind
  intro found
  cases found with
  | true => exact follows_pure ()
  | false => exact follows_malformed expectation

theorem follows_nameBytes (n : Bytes) :
    Follows source (nameBytes n) (TextLoop.nameBehind n) := by
  intro c hc
  show Agrees source (nameBytes n c) _
  fun_induction nameBytes n c with
  | case1 n c hpeek =>
      have hnil := rest_of_peek?_eq_none hpeek
      rw [hnil]
      have hend : (TextLoop.nameBehind n).run [] = .ok (toText n) [] := by
        simp [EStateM.run, TextLoop.nameBehind]
      rw [hend]
      exact .ok hc hnil
  | case2 n c b hpeek hb ih =>
      have hlater := ih (hc.advance_of_peek? hpeek)
      rw [rest_of_peek? hpeek]
      show Agrees source _ (TextLoop.nameBehind n (b :: c.advance.rest))
      rw [TextLoop.nameBehind_cons hb]
      exact hlater
  | case3 n c b hpeek hb =>
      rw [rest_of_peek? hpeek]
      show Agrees source _ (TextLoop.nameBehind n (b :: c.advance.rest))
      rw [TextLoop.nameBehind_of_stop hb]
      exact .ok hc (rest_of_peek? hpeek)

theorem follows_name : Follows source name Reader.name :=
  follows_trivia.bind fun _ => follows_nameBytes []

theorem follows_requiredName (expectation : String) :
    Follows source (requiredName expectation) (Reader.requiredName expectation) := by
  apply follows_name.bind
  intro n
  split
  · exact follows_malformed expectation
  · exact follows_pure n

theorem follows_quoted {quote : UInt8} {op : Operation α} {r : Reader α}
    (h : Follows source op r) (expectation : String) :
    Follows source (quoted quote op expectation)
      (do
        if (← Reader.significant) = some quote then
          let _ ← Reader.eat quote
          r
        else Reader.malformed expectation) := by
  intro c hc
  have hskipped := hc.skipTrivia
  have hrest := c.rest_skipTrivia
  rw [quoted, EStateM.run_bind, run_significant]
  by_cases hquote : c.skipTrivia.peek? = some quote
  · rw [rest_of_peek? hquote] at hrest
    rw [Reader.run_quoted_of_skipTrivia hrest.symm]
    simp only [if_pos hquote]
    exact h _ (hskipped.advance_of_peek? hquote)
  · simp only [if_neg hquote]
    rw [peek?_eq_head?, hrest] at hquote
    rw [EStateM.run_bind, Reader.run_significant]
    simp only [if_neg hquote]
    rw [← hrest]
    exact follows_malformed expectation _ hskipped

theorem follows_stringBody (value : Bytes) :
    Follows source (stringBody value) (Reader.stringBody value) := by
  intro c hc
  show Agrees source (stringBody value c) (Reader.stringBody value c.rest)
  fun_induction stringBody value c with
  | case1 value c hpeek =>
      rw [advance_of_peek?_eq_none hpeek, rest_of_peek?_eq_none hpeek]
      exact hc.agrees_unterminated hpeek .string
  | case2 value c hpeek =>
      rw [rest_of_peek? hpeek, Reader.stringBody_quote]
      exact .ok (hc.advance_of_peek? hpeek) rfl
  | case3 value c hpeek' hpeek hquote =>
      have hnext := hc.advance_of_peek? hpeek
      rw [advance_of_peek?_eq_none hpeek', rest_of_peek? hpeek, rest_of_peek?_eq_none hpeek',
        Reader.stringBody_lone_backslash]
      exact hnext.agrees_unterminated hpeek' .string
  | case4 value c e hpeek' hpeek hquote ih =>
      have hnext := hc.advance_of_peek? hpeek
      rw [rest_of_peek? hpeek, rest_of_peek? hpeek', Reader.stringBody_escape]
      exact ih (hnext.advance_of_peek? hpeek')
  | case5 value c b hpeek hquote hescape ih =>
      rw [rest_of_peek? hpeek, Reader.stringBody_byte hquote hescape]
      exact ih (hc.advance_of_peek? hpeek)

theorem follows_string : Follows source string Reader.string :=
  follows_quoted (follows_stringBody []) _

theorem follows_charUnit : Follows source charUnit Reader.charUnit := by
  intro c hc
  rw [charUnit, EStateM.run_bind, run_next]
  show Agrees source _ (Reader.charUnit c.rest)
  cases hpeek : c.peek? with
  | none =>
      rw [advance_of_peek?_eq_none hpeek, rest_of_peek?_eq_none hpeek]
      exact hc.agrees_unterminated hpeek .char
  | some b =>
      have hnext := hc.advance_of_peek? hpeek
      rw [rest_of_peek? hpeek]
      by_cases hescape : b = ascii '\\'
      · subst hescape
        simp only [if_true]
        rw [EStateM.run_bind, run_next]
        cases hpeek' : c.advance.peek? with
        | none =>
            rw [advance_of_peek?_eq_none hpeek', rest_of_peek?_eq_none hpeek']
            exact hnext.agrees_unterminated hpeek' .char
        | some e =>
            rw [rest_of_peek? hpeek']
            exact .ok (hnext.advance_of_peek? hpeek') rfl
      · simp only [if_neg hescape]
        rw [Reader.charUnit_plain hescape]
        exact .ok hnext rfl

theorem follows_charEnd : Follows source charEnd Reader.charEnd := by
  intro c hc
  rw [charEnd, EStateM.run_bind, run_peek]
  show Agrees source _ (Reader.charEnd c.rest)
  cases hpeek : c.peek? with
  | none =>
      rw [rest_of_peek?_eq_none hpeek]
      exact hc.agrees_unterminated hpeek .char
  | some b =>
      rw [rest_of_peek? hpeek, Reader.charEnd]
      by_cases hquote : b = ascii '\''
      · simp only [if_pos hquote]
        exact .ok (hc.advance_of_peek? hpeek) rfl
      · simp only [if_neg hquote]
        rw [← rest_of_peek? hpeek]
        exact follows_malformed _ c hc

theorem follows_char : Follows source char Reader.char := by
  apply follows_quoted
  apply follows_charUnit.bind
  intro b
  exact follows_charEnd.bind fun _ => follows_pure b

theorem follows_laterDigits (n : Int64) :
    Follows source (laterDigits n) (TextLoop.digitsBehind n) := by
  intro c hc
  show Agrees source (laterDigits n c) (TextLoop.digitsBehind n c.rest)
  fun_induction laterDigits n c with
  | case1 n c hpeek =>
      rw [rest_of_peek?_eq_none hpeek]
      exact .ok hc (rest_of_peek?_eq_none hpeek)
  | case2 n c b hpeek hb ih =>
      rw [rest_of_peek? hpeek, TextLoop.digitsBehind_cons hb]
      exact ih (hc.advance_of_peek? hpeek)
  | case3 n c b hpeek hb =>
      rw [rest_of_peek? hpeek, TextLoop.digitsBehind_of_stop hb]
      exact .ok hc (rest_of_peek? hpeek)

theorem follows_digits : Follows source digits Reader.digits := by
  intro c hc
  have hnil : c.rest.takeWhile isDigit = [] ↔ ¬c.peek?.any isDigit = true := by
    rw [peek?_eq_head?]
    cases c.rest with
    | nil => simp
    | cons b s => simp [List.takeWhile_cons]
  show Agrees source (digits c) (Reader.digits c.rest)
  by_cases hdigit : c.peek?.any isDigit = true
  · rw [digits, Reader.digits, if_pos hdigit, if_neg fun h => hnil.mp h hdigit]
    exact follows_laterDigits 0 c hc
  · rw [digits, Reader.digits, if_neg hdigit, if_pos (hnil.mpr hdigit)]
    exact follows_malformed _ c hc

theorem follows_integer : Follows source integer Reader.integer :=
  (follows_eat _).bind fun _ => follows_digits.bind fun _ => follows_pure _

theorem follows_constant (table : VariableTable) (kind : ValueKind) (select : Value → Option α)
    (expectation : String) :
    Follows source (constant table kind select expectation)
      (Reader.constant table kind select expectation) := by
  apply follows_locate_bind
  intro place
  apply (follows_requiredName expectation).bind
  intro n
  cases table.find? n with
  | none => exact follows_throw rfl
  | some v =>
      dsimp only
      cases select v.value with
      | none => exact follows_throw rfl
      | some a => exact follows_pure a

theorem follows_stringOperand (table : VariableTable) :
    Follows source (stringOperand table) (Reader.stringOperand table) := by
  apply follows_significant.bind
  intro b
  split
  · exact follows_string
  · exact follows_constant table _ _ _

theorem follows_intOperand (table : VariableTable) :
    Follows source (intOperand table) (Reader.intOperand table) := by
  apply follows_significant.bind
  intro b
  split
  · exact follows_integer
  · exact follows_constant table _ _ _

/-- The operations, beside the readers of the same names. -/
inductive Operates : {α : Type} → Operation α → Reader α → Prop
  | trivia : Operates trivia Reader.trivia
  | line : Operates line Reader.line
  | significant : Operates significant Reader.significant
  | eat (b : UInt8) : Operates (eat b) (Reader.eat b)
  | expect (b : UInt8) (expectation : String) :
      Operates (expect b expectation) (Reader.expect b expectation)
  | name : Operates name Reader.name
  | string : Operates string Reader.string
  | char : Operates char Reader.char
  | integer : Operates integer Reader.integer
  | stringOperand (table : VariableTable) :
      Operates (stringOperand table) (Reader.stringOperand table)
  | intOperand (table : VariableTable) : Operates (intOperand table) (Reader.intOperand table)

namespace Operates

variable {op : Operation α} {r : Reader α}

theorem follows (h : Operates op r) : Follows source op r := by
  cases h with
  | trivia => exact follows_trivia
  | line => exact follows_line
  | significant => exact follows_significant
  | eat b => exact follows_eat b
  | expect b expectation => exact follows_expect b expectation
  | name => exact follows_name
  | string => exact follows_string
  | char => exact follows_char
  | integer => exact follows_integer
  | stringOperand table => exact follows_stringOperand table
  | intOperand table => exact follows_intOperand table

theorem scans (h : Operates op r) : r.Scans := by
  cases h with
  | trivia => exact .trivia
  | line => exact .line
  | significant => exact .significant
  | eat b => exact .token (.eat b)
  | expect b expectation => exact .token (.expect b expectation)
  | name => exact .token .name
  | string => exact .token .string
  | char => exact .token .char
  | integer => exact .token .integer
  | stringOperand table => exact .token (.stringOperand table)
  | intOperand table => exact .token (.intOperand table)

end Operates

/-- Each reader that drives scanners is followed by an operation. -/
theorem exists_operates {r : Reader α} (hr : r.Scans) : ∃ op : Operation α, Operates op r := by
  cases hr with
  | trivia => exact ⟨_, .trivia⟩
  | line => exact ⟨_, .line⟩
  | significant => exact ⟨_, .significant⟩
  | token hr =>
      cases hr with
      | eat b => exact ⟨_, .eat b⟩
      | expect b expectation => exact ⟨_, .expect b expectation⟩
      | name => exact ⟨_, .name⟩
      | string => exact ⟨_, .string⟩
      | char => exact ⟨_, .char⟩
      | integer => exact ⟨_, .integer⟩
      | stringOperand table => exact ⟨_, .stringOperand table⟩
      | intOperand table => exact ⟨_, .intOperand table⟩

/-! ### Runs -/

/-- The scanner behind an operation, also if the operation fails. -/
def Operation.behind (op : Operation α) (c : Scanner) : Scanner :=
  match op.run c with
  | .ok _ d => d
  | .error _ d => d

/-- An operation leaves the scanner behind all that the reader takes. -/
theorem Operates.behind_eq_after {op : Operation α} {r : Reader α} (h : Operates op r)
    (hc : IsCounted source c) : op.behind c = c.after r := by
  obtain ⟨hafter, -, hrest⟩ := hc.after h.scans.forward
  have hfollows := h.follows c hc
  rw [Reader.rest] at hrest
  rw [Operation.behind]
  generalize op.run c = outcome at hfollows ⊢
  generalize r.run c.rest = reading at hfollows hrest
  cases hfollows with
  | ok hd hs => exact hd.eq_of_rest_eq hafter (hs.trans hrest.symm)
  | error hd hs => exact hd.eq_of_rest_eq hafter (hs.trans hrest.symm)

/-- A sequence of operations, of any length and in any order. -/
def Runs : Scanner → Scanner → Prop :=
  Relation.ReflTransGen fun c d =>
    ∃ (α : Type) (op : Operation α) (r : Reader α), Operates op r ∧ d = op.behind c

/-- Operations drive a scanner wherever readers do, and nowhere else. -/
theorem runs_iff_reaches (hc : IsCounted source c) : Runs c d ↔ Reaches c d := by
  constructor
  · intro h
    induction h with
    | refl => exact .refl
    | tail _ hstep ih =>
        obtain ⟨hcounted, -⟩ := isCounted_of_reaches hc ih
        obtain ⟨α, op, r, hop, rfl⟩ := hstep
        exact ih.tail ⟨α, r, hop.scans, hop.behind_eq_after hcounted⟩
  · intro h
    induction h with
    | refl => exact .refl
    | tail hfront hstep ih =>
        obtain ⟨hcounted, -⟩ := isCounted_of_reaches hc hfront
        obtain ⟨α, r, hr, rfl⟩ := hstep
        obtain ⟨op, hop⟩ := exists_operates hr
        exact ih.tail ⟨α, op, r, hop, (hop.behind_eq_after hcounted).symm⟩

end Scanner

end ConsoleScript
