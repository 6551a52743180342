import ConsoleScript.Bytes.Basic

/-!
# Lossy UTF-8 decoding

A source may hold any bytes, and an excerpt of it may cut a character in two.
Decoding therefore never fails: each maximal ill-formed part becomes one
replacement character.
-/

namespace ConsoleScript.Text

/-- Shown in place of an ill-formed part. -/
def replacement : Char := Char.ofNat 0xFFFD

/-- An interval of bytes, bounds included. -/
structure ByteRange where
  least : UInt8
  greatest : UInt8
deriving DecidableEq, Repr

/-- The bytes between the bounds of an interval. -/
def ByteRange.contains (r : ByteRange) (b : UInt8) : Bool :=
  r.least ≤ b && b ≤ r.greatest

/-- The interval of an unrestricted continuation byte. -/
def continuation : ByteRange := ⟨0x80, 0xBF⟩

/-- What a lead byte demands: the intervals of the bytes behind it, and the
bits of the code point that it carries itself. -/
structure LeadByte where
  following : List ByteRange
  bits : UInt8
deriving DecidableEq, Repr

/-- The demands of a lead byte, or `none` for a byte that starts no character.
The first following byte is restricted where overlong forms, surrogates or
numbers above the last code point would arise. -/
def LeadByte.of? (b : UInt8) : Option LeadByte :=
  if b < 0x80 then some ⟨[], b⟩
  else if b < 0xC2 then none
  else if b < 0xE0 then some ⟨[continuation], b &&& 0x1F⟩
  else if b < 0xF0 then
    let second : ByteRange :=
      if b = 0xE0 then ⟨0xA0, 0xBF⟩ else if b = 0xED then ⟨0x80, 0x9F⟩ else continuation
    some ⟨[second, continuation], b &&& 0x0F⟩
  else if b < 0xF5 then
    let second : ByteRange :=
      if b = 0xF0 then ⟨0x90, 0xBF⟩ else if b = 0xF4 then ⟨0x80, 0x8F⟩ else continuation
    some ⟨[second, continuation, continuation], b &&& 0x07⟩
  else none

/-- The character that starts with the given bits, if each following byte lies
in its interval, and the bytes behind the part. -/
def followingBytes (bits : Nat) : List ByteRange → Bytes → Char × Bytes
  | [], s => (Char.ofNat bits, s)
  | _ :: _, [] => (replacement, [])
  | r :: ranges, b :: s =>
    if r.contains b then followingBytes (bits * 64 + (b &&& 0x3F).toNat) ranges s
    else (replacement, b :: s)

theorem length_followingBytes_le (bits : Nat) (ranges : List ByteRange) (s : Bytes) :
    (followingBytes bits ranges s).2.length ≤ s.length := by
  fun_induction followingBytes bits ranges s with
  | case1 => exact Nat.le_refl _
  | case2 => exact Nat.le_refl _
  | case3 _ _ _ _ _ _ ih => exact Nat.le_succ_of_le ih
  | case4 => exact Nat.le_refl _

/-- The first part of a nonempty byte string as a character, and the bytes
behind that part. -/
def decodePart (b : UInt8) (s : Bytes) : Char × Bytes :=
  match LeadByte.of? b with
  | none => (replacement, s)
  | some lead => followingBytes lead.bits.toNat lead.following s

theorem length_decodePart_le (b : UInt8) (s : Bytes) :
    (decodePart b s).2.length ≤ s.length := by
  rw [decodePart]
  split
  · exact Nat.le_refl _
  · exact length_followingBytes_le _ _ _

/-- The characters of a byte string, one replacement for each ill-formed part. -/
def decodeChars : Bytes → List Char
  | [] => []
  | b :: s => (decodePart b s).1 :: decodeChars (decodePart b s).2
termination_by s => s.length
decreasing_by exact Nat.lt_succ_of_le (length_decodePart_le b s)

/-- The text of a byte string, one replacement for each ill-formed part. -/
def decodeLossy (s : Bytes) : String := String.ofList (decodeChars s)

end ConsoleScript.Text
