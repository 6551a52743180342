/-!
# Bytes and ASCII classes

Source text, code sections and files are lists of bytes. This module names the
bytes of ASCII characters and the classes that the source language tells apart.
-/

namespace ConsoleScript

/-- Source text, the code section of a program, or the content of a file. -/
abbrev Bytes := List UInt8

/-- The byte of an ASCII character. -/
abbrev ascii (c : Char) : UInt8 := c.toUInt8

namespace Bytes

/-- The UTF-8 encoding of a text. -/
def ofString (s : String) : Bytes := s.toUTF8.data.toList

/-- The text whose characters have the bytes as code points. -/
def toText (s : Bytes) : String := String.ofList (s.map Char.ofUInt8)

/-- Separators inside a line, and the two bytes that may end one. -/
def isBlank (b : UInt8) : Bool :=
  b == ascii ' ' || b == ascii '\t' || b == ascii '\r' || b == ascii '\n'

/-- Decimal digits. -/
def isDigit (b : UInt8) : Bool :=
  ascii '0' ≤ b && b ≤ ascii '9'

/-- Letters, digits and the underscore: the bytes that names consist of. -/
def isNameByte (b : UInt8) : Bool :=
  (ascii 'a' ≤ b && b ≤ ascii 'z') || (ascii 'A' ≤ b && b ≤ ascii 'Z') ||
    isDigit b || b == ascii '_'

end Bytes

end ConsoleScript
