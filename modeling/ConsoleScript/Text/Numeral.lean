import ConsoleScript.Bytes.Basic

/-!
# Numerals in listings and reports

Hexadecimal numerals of a least width, and decimal numerals that always show
their sign.
-/

namespace ConsoleScript.Text

/-- The two alphabets of hexadecimal digits. -/
inductive HexCase where
  | lower
  | upper
deriving DecidableEq, Repr

/-- The letter that stands for the digit ten. -/
def HexCase.ten : HexCase → Char
  | .lower => 'a'
  | .upper => 'A'

/-- The hexadecimal digit of a number below sixteen. -/
def hexDigit (hexCase : HexCase) (n : Nat) : Char :=
  if n < 10 then Char.ofNat ('0'.toNat + n) else Char.ofNat (hexCase.ten.toNat + (n - 10))

/-- The hexadecimal digits of a number, most significant first. -/
def hexDigits (hexCase : HexCase) (n : Nat) : List Char :=
  if n < 16 then [hexDigit hexCase n]
  else hexDigits hexCase (n / 16) ++ [hexDigit hexCase (n % 16)]

/-- A hexadecimal numeral, filled up with zeros to the least width. -/
def hex (hexCase : HexCase) (width n : Nat) : String :=
  String.ofList ((hexDigits hexCase n).leftpad width '0')

/-- A decimal numeral with its sign, which zero shows as a plus. -/
def signed (n : Int) : String :=
  if n < 0 then toString n else "+" ++ toString n

theorem hexDigits_ne_nil (hexCase : HexCase) (n : Nat) : hexDigits hexCase n ≠ [] := by
  rw [hexDigits]
  split <;> simp

end ConsoleScript.Text
