import ConsoleScript.Executable.Basic

/-!
# Reading an executable

The fields of the header are read in order and checked as they come. Flags and
reserved bytes are not checked, and bytes behind the code section stay unread.
-/

namespace ConsoleScript

/-- Why bytes are no executable. -/
inductive ParseError where
  /-- The input ends before the field that is read next. -/
  | unexpectedEnd
  /-- The input does not start with the magic bytes. -/
  | badMagic
  /-- The format's version is not the known one. -/
  | unsupportedVersion (version : UInt8)
deriving DecidableEq, Repr

/-- The text of a parsing error. -/
def ParseError.message : ParseError → String
  | unexpectedEnd => "IO error: failed to fill whole buffer"
  | badMagic => "Invalid module format: Invalid magic number"
  | unsupportedVersion version => s!"Unsupported module version: {version.toNat}"

/-- Reads a file from its front; the state is what is left of it. -/
abbrev FileReader := StateT Bytes (Except ParseError)

namespace FileReader

/-- Reads exactly so many bytes. -/
def take (n : Nat) : FileReader Bytes := fun s =>
  if n ≤ s.length then .ok (s.take n, s.drop n) else .error .unexpectedEnd

/-- Reads one byte. -/
def next : FileReader UInt8
  | b :: s => .ok (b, s)
  | [] => .error .unexpectedEnd

end FileReader

namespace Executable

/-- An executable as it is read from a file, with the version of the format that
it was in. -/
structure Parsed extends Executable where
  version : UInt8 := formatVersion
deriving DecidableEq, Repr

/-- Reads the magic bytes. -/
def parseMagic : FileReader Unit := do
  unless (← FileReader.take magic.length) = magic do throw .badMagic

/-- Reads the version of the format. -/
def parseVersion : FileReader Unit := do
  let version ← FileReader.next
  unless version = formatVersion do throw (.unsupportedVersion version)

/-- Reads what stands behind the version. -/
def parseContent : FileReader Parsed := do
  let bits ← FileReader.next
  let length ← FileReader.take 4
  let _ ← FileReader.take reserved.length
  let code ← FileReader.take (Bytes.ofLittleEndian length)
  return { flags := ⟨bits⟩, code }

/-- Reads an executable from the front of a file. -/
def parse : FileReader Parsed := do
  parseMagic
  parseVersion
  parseContent

end Executable

end ConsoleScript
