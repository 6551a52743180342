import ConsoleScript.Text.Utf8

/-!
# Locations in a source

A place in a source is what is left of the source from there on. A location
describes a place to a reader: its line and column, and an excerpt.

## Implementation notes

Places are suffixes of the source, so everything that reads a source can be
stated without positions. Lines and columns are counted once, when a place is
described.
-/

namespace ConsoleScript

/-- A line and a column, both counted from one; columns count bytes. -/
structure Position where
  line : Nat := 1
  column : Nat := 1
deriving DecidableEq, Repr

namespace Position

/-- The position behind a byte. -/
def advance (p : Position) (b : UInt8) : Position :=
  if b = ascii '\n' then ⟨p.line + 1, 1⟩ else ⟨p.line, p.column + 1⟩

/-- The position behind a text. -/
def behind (s : Bytes) : Position := s.foldl advance {}

@[simp] theorem behind_nil : behind [] = ⟨1, 1⟩ := rfl

@[simp] theorem behind_concat (s : Bytes) (b : UInt8) :
    behind (s ++ [b]) = (behind s).advance b := by
  simp [behind]

end Position

/-- A description of a place in a source. -/
structure Location extends Position where
  snippet : String
deriving DecidableEq, Repr

namespace Location

/-- The number of bytes that an excerpt has at most. -/
def snippetLength : Nat := 20

/-- The start of a text up to its first line break. -/
def excerpt (rest : Bytes) : String :=
  Text.decodeLossy ((rest.take snippetLength).takeWhile (· != ascii '\n'))

/-- The location in a source of the place from which `rest` is left. -/
def within (source rest : Bytes) : Location where
  toPosition := .behind (source.take (source.length - rest.length))
  snippet := excerpt rest

/-- The text of a location. -/
def text (l : Location) : String :=
  s!"line {l.line}, column {l.column}" ++
    if l.snippet.isEmpty then "" else s!" near `{l.snippet}`"

theorem within_append (before rest : Bytes) :
    within (before ++ rest) rest = ⟨.behind before, excerpt rest⟩ := by
  simp [within]

end Location

end ConsoleScript
