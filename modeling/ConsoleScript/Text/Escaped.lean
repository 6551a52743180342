import ConsoleScript.Text.Numeral

/-!
# Escaped byte strings

Printable ASCII bytes stand for themselves, three control bytes and the three
delimiters take a backslash and a letter, and every other byte is written as a
backslash, `x` and two hexadecimal digits.
-/

namespace ConsoleScript.Text

/-- The visible form of one byte. -/
def escapeByte (b : UInt8) : List Char :=
  if b = ascii '\t' then ['\\', 't']
  else if b = ascii '\r' then ['\\', 'r']
  else if b = ascii '\n' then ['\\', 'n']
  else if b = ascii '\'' ∨ b = ascii '"' ∨ b = ascii '\\' then ['\\', Char.ofUInt8 b]
  else if ascii ' ' ≤ b ∧ b ≤ ascii '~' then [Char.ofUInt8 b]
  else ['\\', 'x', hexDigit .lower (b.toNat / 16), hexDigit .lower (b.toNat % 16)]

/-- A byte string in visible ASCII, without line breaks. -/
def escape (s : Bytes) : String :=
  String.ofList (s.flatMap escapeByte)

/-- A byte string between double quotes. -/
def quoted (s : Bytes) : String :=
  "\"" ++ escape s ++ "\""

@[simp] theorem escape_nil : escape [] = "" := rfl

theorem escape_append (s t : Bytes) : escape (s ++ t) = escape s ++ escape t := by
  simp [escape, String.ofList_append]

end ConsoleScript.Text
