import ConsoleScript.Source.Reader

/-!
# Literals

String literals stand between double quotes and char literals between single
quotes. Inside either, a backslash gives the byte behind it another meaning.
Integer literals are decimal and may be negative; their digits are collected in a
word of 64 bits, which wraps around.
-/

namespace ConsoleScript

namespace Bytes

/-- The byte that stands for itself or, behind a backslash, for a control byte. -/
def unescape (b : UInt8) : UInt8 :=
  if b = ascii 'n' then ascii '\n'
  else if b = ascii 't' then ascii '\t'
  else if b = ascii 'r' then ascii '\r'
  else if b = ascii '0' then 0
  else b

/-- The word of 64 bits that a decimal numeral leaves. -/
def numeralValue (digits : Bytes) : Int64 :=
  digits.foldl (fun n d => n * 10 + (d - ascii '0').toUInt64.toInt64) 0

end Bytes

namespace Reader

/-- The source ends inside a literal. -/
def unterminated {α : Type} (literal : LiteralKind) : Reading α :=
  .error (.unterminated literal []) []

/-- Takes the bytes of a string literal up to its closing quote, behind those
that were taken before. The value is collected backwards. -/
def stringBody (value : Bytes) : Bytes → Reading Bytes
  | [] => unterminated .string
  | b :: s =>
    if b = ascii '"' then .ok value.reverse s
    else if b = ascii '\\' then
      match s with
      | [] => unterminated .string
      | c :: s => stringBody (Bytes.unescape c :: value) s
    else stringBody (b :: value) s

/-- Takes a string literal. -/
def string : Reader Bytes := do
  if (← significant) = some (ascii '"') then
    let _ ← eat (ascii '"')
    stringBody []
  else malformed "Expected string literal"

/-- Takes one byte of a char literal, which a backslash may precede. -/
def charUnit : Bytes → Reading UInt8
  | [] => unterminated .char
  | b :: s =>
    if b = ascii '\\' then
      match s with
      | [] => unterminated .char
      | c :: s => .ok (Bytes.unescape c) s
    else .ok b s

/-- Takes the closing quote of a char literal. -/
def charEnd : Bytes → Reading Unit
  | [] => unterminated .char
  | b :: s =>
    if b = ascii '\'' then .ok () s
    else .error (.malformed "Expected closing ' in char literal" (b :: s)) (b :: s)

/-- Takes a char literal. -/
def char : Reader UInt8 := do
  if (← significant) = some (ascii '\'') then
    let _ ← eat (ascii '\'')
    let b ← charUnit
    charEnd
    return b
  else malformed "Expected char literal"

/-- Takes the longest run of digits, of which there has to be one. -/
def digits : Reader Int64 := fun s =>
  if s.takeWhile Bytes.isDigit = [] then .error (.malformed "Expected integer literal" s) s
  else .ok (Bytes.numeralValue (s.takeWhile Bytes.isDigit)) (s.dropWhile Bytes.isDigit)

/-- Takes an integer literal. -/
def integer : Reader Int32 := do
  let negative ← eat (ascii '-')
  let n ← digits
  return (if negative then -n else n).toInt32

section StringBody

variable {value s : Bytes} {b c : UInt8}

theorem stringBody_nil : stringBody value [] = unterminated .string := rfl

theorem stringBody_quote : stringBody value (ascii '"' :: s) = .ok value.reverse s := by
  cases s <;> simp [stringBody]

theorem stringBody_lone_backslash :
    stringBody value [ascii '\\'] = unterminated .string := by
  simp [stringBody, show ascii '\\' ≠ ascii '"' by decide]

theorem stringBody_escape :
    stringBody value (ascii '\\' :: c :: s) = stringBody (Bytes.unescape c :: value) s := by
  simp [stringBody, show ascii '\\' ≠ ascii '"' by decide]

theorem stringBody_byte (hq : b ≠ ascii '"') (hb : b ≠ ascii '\\') :
    stringBody value (b :: s) = stringBody (b :: value) s := by
  cases s <;> simp [stringBody, hq, hb]

end StringBody

theorem forward_stringBody (value : Bytes) : Forward (stringBody value : Reader Bytes) := by
  intro s
  unfold rest EStateM.run
  fun_induction stringBody value s with
  | case1 => exact List.suffix_rfl
  | case2 value s => exact List.suffix_cons _ _
  | case3 value hq => exact List.nil_suffix
  | case4 value hq c s ih =>
      exact ih.trans ((List.suffix_cons _ _).trans (List.suffix_cons _ _))
  | case5 value b s hq hb ih => exact ih.trans (List.suffix_cons _ _)

theorem forward_string : Forward string := by
  refine forward_significant.bind fun b => ?_
  split
  · exact (forward_eat _).bind fun _ => forward_stringBody []
  · exact forward_malformed _

theorem forward_charUnit : Forward (charUnit : Reader UInt8) := by
  intro s
  unfold rest EStateM.run
  fun_cases charUnit s with
  | case1 => exact List.suffix_rfl
  | case2 => exact List.nil_suffix
  | case3 c s => exact (List.suffix_cons _ _).trans (List.suffix_cons _ _)
  | case4 b s hb => exact List.suffix_cons _ _

theorem forward_charEnd : Forward (charEnd : Reader Unit) := by
  intro s
  unfold rest EStateM.run
  fun_cases charEnd s with
  | case1 => exact List.suffix_rfl
  | case2 s => exact List.suffix_cons _ _
  | case3 b s hb => exact List.suffix_rfl

theorem forward_char : Forward char := by
  refine forward_significant.bind fun b => ?_
  split
  · exact (forward_eat _).bind fun _ => forward_charUnit.bind fun b =>
      forward_charEnd.bind fun _ => forward_pure b
  · exact forward_malformed _

theorem forward_digits : Forward digits := by
  intro s
  by_cases h : s.takeWhile Bytes.isDigit = []
  · simp [rest, EStateM.run, digits, h]
  · simpa [rest, EStateM.run, digits, h] using List.dropWhile_suffix Bytes.isDigit

theorem forward_integer : Forward integer :=
  (forward_eat _).bind fun _ => forward_digits.bind fun _ => forward_pure _

end Reader

end ConsoleScript
